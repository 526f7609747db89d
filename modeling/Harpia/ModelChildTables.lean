import Harpia.ModelCollisions

namespace Harpia

open Text

variable {b : Backend} {types : Types}

theorem composedTarget_eq_some {v : Variable} {m : Message} (h : composedTarget types v = some m) :
    ∃ target, v.type = .ID target ∧ lookupType types target = some (.message, m) := by
  unfold composedTarget at h
  split at h
  next target ht =>
    split at h
    next m' hl =>
      cases Option.some.inj h
      exact ⟨target, ht, hl⟩
    next => simp at h
  next => simp at h

theorem composedTarget_mem {S : Schema} {v : Variable} {m : Message}
    (h : composedTarget S.types v = some m) : m ∈ S.messages := by
  obtain ⟨target, -, hl⟩ := composedTarget_eq_some h
  exact (typeRegistry_mem hl).1

theorem words_childTable (table suffix : String) :
    words (table ++ "__" ++ suffix) = words table ++ [] :: words suffix := by
  have hj : table ++ "__" ++ suffix = table ++ "_" ++ "" ++ "_" ++ suffix := by
    rw [← String.toList_inj]
    simp
  rw [hj, words_join, words_join, List.append_assoc]
  rfl

theorem words_embeddedTable (table embed field : String) :
    words (table ++ "__" ++ embed ++ "_" ++ field) =
      words table ++ [] :: (words embed ++ words field) := by
  rw [words_join, words_childTable, List.append_assoc]
  rfl

theorem scalar_isSome_iff (token : TypeToken) : (scalar b token).isSome ↔ isScalarToken token := by
  cases token <;> simp [scalar, isScalarToken]

theorem mapField_isSome_iff (table : String) (v : Variable) (embed : Option String) :
    (mapField b table v embed).isSome ↔ ScalarMap v := by
  unfold mapField ScalarMap
  rcases ht : v.typeMap with _ | ⟨key, _ | ⟨val, rest⟩⟩
  · simp
  · simp
  · have hk := scalar_isSome_iff (b := b) key
    have hv := scalar_isSome_iff (b := b) val
    simp only [List.getElem?_cons_zero, List.getElem?_cons_succ, Option.bind_some]
    cases ek : scalar b key <;> cases ev : scalar b val <;> simp_all

theorem mapField_childTable {table : String} {v : Variable} {embed : Option String} {f : MapField}
    (h : mapField b table v embed = some f) :
    f.childTable = table ++ "__" ++ childPath embed v.name := by
  unfold mapField at h
  split at h
  · cases Option.some.inj h
    rfl
  · simp at h

theorem mapField_enumerates (table : String) (v : Variable) (embed : Option String) :
    Enumerates ((mapField b table v embed).toList.map MapField.childTable)
      fun (_ : Unit) name => ScalarMap v ∧ name = table ++ "__" ++ childPath embed v.name := by
  refine .guarded (fun h => ?_) fun h => ?_
  · obtain ⟨f, hf⟩ := Option.isSome_iff_exists.mp ((mapField_isSome_iff (b := b) table v embed).mpr h)
    simp [hf, mapField_childTable hf]
  · rw [← mapField_isSome_iff (b := b) table v embed, Option.not_isSome_iff_eq_none] at h
    simp [h]

theorem directRepeated_composed (S : Schema) {table : String} {m : Message} {v : Variable}
    {target : String} (rep : v.typeMap = [] ∧ .REPETEABLE ∈ v.modifiers) (ht : v.type = .ID target)
    (hl : lookupType S.types target = some (.message, m)) :
    Enumerates ((directRepeated b S.types S.fuel table v).map RepeatedField.childTable)
      fun (_ : Unit) name => (∃ position name, ElementColumn S.types m position name) ∧
        name = table ++ "__" ++ v.name := by
  have hm := (typeRegistry_mem hl).1
  have columns := flatten_element_enumerates (b := b) S hm (S.rank_lt_fuel hm) v.name []
  have stored : (flatten b S.types S.fuel v.name m [] false).1 ≠ [] ↔
      ∃ position name, ElementColumn S.types m position name := by
    constructor
    · intro h
      obtain ⟨c, hc⟩ := List.exists_mem_of_ne_nil _ h
      obtain ⟨key, hk⟩ := columns.mem_iff.mp (List.mem_map_of_mem hc)
      exact ⟨_, _, hk⟩
    · rintro ⟨position, name, h⟩ he
      have hn := columns.mem_iff.mpr ⟨((), position), h⟩
      simp [he] at hn
  refine .guarded (fun h => ?_) fun h => ?_
  · rw [← stored] at h
    simp [directRepeated, rep, ht, hl, h, RepeatedField.childTable]
  · rw [← stored] at h
    simp [directRepeated, rep, ht, hl, h]

theorem directRepeated_enumerates (S : Schema) (table : String) (v : Variable) :
    Enumerates ((directRepeated b S.types S.fuel table v).map RepeatedField.childTable)
      fun (_ : Unit) name => (RepeatedScalar v ∨ RepeatedMessage S.types v) ∧
        name = table ++ "__" ++ v.name := by
  by_cases rep : v.typeMap = [] ∧ .REPETEABLE ∈ v.modifiers
  · cases ht : v.type with
    | ID target =>
      cases hl : lookupType S.types target with
      | none =>
        refine .guarded (fun h => ?_) fun h => ?_
        all_goals simp_all [directRepeated, RepeatedScalar, RepeatedMessage, isScalarToken]
      | some found =>
        obtain ⟨k, m⟩ := found
        cases k with
        | message =>
          refine (directRepeated_composed S rep ht hl).congr fun key name => ?_
          simp [RepeatedScalar, RepeatedMessage, rep, ht, hl, isScalarToken]
        | _ =>
          refine .guarded (fun h => ?_) fun h => ?_
          all_goals
            simp_all [directRepeated, RepeatedScalar, RepeatedMessage, isScalarToken,
              RepeatedField.childTable]
    | _ =>
      refine .guarded (fun h => ?_) fun h => ?_
      all_goals
        simp_all [directRepeated, RepeatedScalar, RepeatedMessage, isScalarToken, scalar,
          RepeatedField.childTable]
  · refine .guarded (fun h => ?_) fun h => ?_
    · exact absurd (h.elim (fun h => ⟨h.1, h.2.1⟩) fun h => ⟨h.1, h.2.1⟩) rep
    · have skip : v.typeMap ≠ [] ∨ .REPETEABLE ∉ v.modifiers := not_and_or.mp rep
      simp [directRepeated, skip]

/-- A child table of the field `v` itself. -/
def OwnChild (P : Variable → Prop) (table : String) (v : Variable) (slot : Option Nat)
    (name : String) : Prop :=
  slot = none ∧ P v ∧ name = table ++ "__" ++ v.name

/-- A child table of a field of the table-less message `v` refers to. -/
def EmbeddedChild (types : Types) (P : Variable → Prop) (table : String) (v : Variable)
    (slot : Option Nat) (name : String) : Prop :=
  ∃ j w m, slot = some j ∧ v.typeMap = [] ∧ composedTarget types v = some m ∧
    m.visible[j]? = some w ∧ P w ∧ name = table ++ "__" ++ lower v.name ++ "_" ++ w.name

theorem ownChild_enumerates (P : Variable → Prop) {table : String} {v : Variable}
    {l : List String}
    (h : Enumerates l fun (_ : Unit) name => P v ∧ name = table ++ "__" ++ v.name) :
    Enumerates l (OwnChild P table v) := by
  have inj : Function.Injective fun _ : Unit => (none : Option Nat) := fun _ _ _ => rfl
  refine (h.rekey inj).congr fun slot name => ?_
  simp [OwnChild, eq_comm]

theorem embeddedChild_enumerates (P : Variable → Prop) (table : String) {v : Variable}
    {f : Variable → List String} (plain : v.typeMap = [])
    (h : ∀ w, Enumerates (f w) fun (_ : Unit) name =>
      P w ∧ name = table ++ "__" ++ lower v.name ++ "_" ++ w.name) :
    Enumerates ((composedTarget types v).elim [] fun m => m.visible.flatMap f)
      (EmbeddedChild types P table v) := by
  cases hm : composedTarget types v with
  | none => exact .nil fun slot name ⟨_, _, _, _, _, h, _⟩ => by simp [hm] at h
  | some m =>
    have inj : Function.Injective fun k : Nat × Unit => some k.1 := by
      rintro ⟨i, u⟩ ⟨j, w⟩ he
      simpa using he
    refine ((Enumerates.flatMap m.visible fun w _ => h w).rekey inj).congr fun slot name => ?_
    constructor
    · rintro ⟨⟨j, u⟩, rfl, w, hw, hP, rfl⟩
      exact ⟨j, w, m, rfl, plain, hm, hw, hP, rfl⟩
    · rintro ⟨j, w, m', rfl, -, hm', hw, hP, rfl⟩
      rw [hm, Option.some.injEq] at hm'
      subst hm'
      exact ⟨(j, ()), rfl, w, hw, hP, rfl⟩

theorem not_own_and_embedded {P Q : Variable → Prop} {table name name' : String} {v : Variable}
    {slot : Option Nat} (own : OwnChild P table v slot name)
    (inner : EmbeddedChild types Q table v slot name') : False := by
  obtain ⟨rfl, -⟩ := own
  obtain ⟨j, -, -, hs, -⟩ := inner
  simp at hs

theorem typeMap_ne_nil {v : Variable} (h : ScalarMap v) : v.typeMap ≠ [] := by
  obtain ⟨key, val, rest, ht, -⟩ := h
  simp [ht]

theorem mapFieldsOf_enumerates (types : Types) (table : String) (v : Variable) :
    Enumerates ((mapFieldsOf b types table v).map MapField.childTable) fun slot name =>
      OwnChild ScalarMap table v slot name ∨ EmbeddedChild types ScalarMap table v slot name := by
  by_cases plain : v.typeMap = []
  · have inner : (mapFieldsOf b types table v).map MapField.childTable =
        (composedTarget types v).elim [] fun m => m.visible.flatMap fun w =>
          (if w.typeMap ≠ [] then (mapField b table w (some (lower v.name))).toList else []).map
            MapField.childTable := by
      simp only [mapFieldsOf, plain]
      cases composedTarget types v <;> simp [List.map_flatMap]
    rw [inner]
    refine (embeddedChild_enumerates ScalarMap table plain fun w => ?_).congr
      fun slot name => ?_
    · by_cases hw : w.typeMap = []
      · refine .guarded (fun h => absurd hw (typeMap_ne_nil h)) fun _ => by simp [hw]
      · simpa [hw, childPath, String.append_assoc] using
          mapField_enumerates (b := b) table w (some (lower v.name))
    · have own : ¬ OwnChild ScalarMap table v slot name := fun ⟨_, h, _⟩ => typeMap_ne_nil h plain
      simp [own]
  · have own : mapFieldsOf b types table v = (mapField b table v none).toList := by
      simp [mapFieldsOf, plain]
    rw [own]
    refine (ownChild_enumerates ScalarMap (mapField_enumerates table v none)).congr fun slot name => ?_
    simp only [EmbeddedChild, plain, false_and, and_false, exists_false, or_false]

theorem embeddedRepeated_enumerates (types : Types) (table : String) (v : Variable) :
    Enumerates ((embeddedRepeated b types table v).map RepeatedField.childTable)
      (EmbeddedChild types RepeatedScalar table v) := by
  by_cases plain : v.typeMap = []
  · have inner : (embeddedRepeated b types table v).map RepeatedField.childTable =
        (composedTarget types v).elim [] fun m => m.visible.flatMap fun w =>
          if w.typeMap ≠ [] ∨ .REPETEABLE ∉ w.modifiers ∨ ¬ isScalarToken w.type then []
          else [table ++ "__" ++ lower v.name ++ "_" ++ w.name] := by
      simp only [embeddedRepeated, plain]
      cases composedTarget types v with
      | none => rfl
      | some m =>
        simp only [ne_eq, not_true_eq_false, ↓reduceIte, List.map_flatMap, Option.elim_some]
        refine List.flatMap_congr fun w _ => ?_
        cases hs : scalar b w.type with
        | none =>
          have : ¬ isScalarToken w.type := by simp [← scalar_isSome_iff (b := b), hs]
          simp [this]
        | some found =>
          have : isScalarToken w.type := by simp [← scalar_isSome_iff (b := b), hs]
          simp only [this, not_true_eq_false, or_false]
          split <;> rfl
    rw [inner]
    refine embeddedChild_enumerates RepeatedScalar table plain fun w => ?_
    refine .guarded (fun h => ?_) fun h => ?_
    · simp [h.1, h.2.1, h.2.2]
    · simp only [RepeatedScalar] at h
      simp only [ite_eq_left_iff]
      tauto
  · have none : embeddedRepeated b types table v = [] := by simp [embeddedRepeated, plain]
    rw [none]
    exact .nil fun slot name ⟨_, _, _, _, h, _⟩ => plain h

/-- The child tables of a message: the field each belongs to, and its name. -/
theorem childTableNames_enumerates (S : Schema) {msg : Message} (ht : msg.tableName ≠ "") :
    Enumerates (childTableNames b S.types S.fuel msg) fun key name =>
      ∃ ws, ChildField S.types msg key ws ∧ words name = words msg.tableName ++ [] :: ws := by
  have maps := Enumerates.flatMap msg.vars fun v _ =>
    mapFieldsOf_enumerates (b := b) S.types msg.tableName v
  have direct := Enumerates.flatMap msg.vars fun v _ =>
    ownChild_enumerates (fun v => RepeatedScalar v ∨ RepeatedMessage S.types v)
      (directRepeated_enumerates (b := b) S msg.tableName v)
  have embedded := Enumerates.flatMap msg.vars fun v _ =>
    embeddedRepeated_enumerates (b := b) S.types msg.tableName v
  have names : childTableNames b S.types S.fuel msg =
      (msg.vars.flatMap fun v => (mapFieldsOf b S.types msg.tableName v).map MapField.childTable) ++
        ((msg.vars.flatMap fun v =>
            (directRepeated b S.types S.fuel msg.tableName v).map RepeatedField.childTable) ++
          msg.vars.flatMap fun v =>
            (embeddedRepeated b S.types msg.tableName v).map RepeatedField.childTable) := by
    simp [childTableNames, mapFields, repeatedFields, ht, List.map_flatMap]
  rw [names]
  refine (maps.append (direct.append embedded ?_) ?_).congr ?_
  · rintro ⟨i, slot⟩ _ _ ⟨v, -, rfl, -⟩ ⟨v', -, j, w, m, hs, -⟩
    simp at hs
  · rintro ⟨i, slot⟩ _ _ ⟨v, hv, own | inner⟩ (⟨v', hv', own'⟩ | ⟨v', hv', inner'⟩)
    all_goals
      rw [hv, Option.some.injEq] at hv'
      subst hv'
    · exact typeMap_ne_nil own.2.1 (own'.2.1.elim (·.1) (·.1))
    · exact not_own_and_embedded own inner'
    · exact not_own_and_embedded own' inner
    · obtain ⟨j, w, m, rfl, -, hm, hw, hP, -⟩ := inner
      obtain ⟨j', w', m', hj, -, hm', hw', hP', -⟩ := inner'
      simp_all
      exact typeMap_ne_nil hP hP'.1
  · rintro ⟨i, slot⟩ name
    constructor
    · rintro (⟨v, hv, own | inner⟩ | ⟨v, hv, own⟩ | ⟨v, hv, inner⟩)
      · obtain ⟨rfl, hP, rfl⟩ := own
        exact ⟨_, .map hv hP, words_childTable _ _⟩
      · obtain ⟨j, w, m, rfl, plain, hm, hw, hP, rfl⟩ := inner
        exact ⟨_, .embedded hv plain hm hw (.inl hP), words_embeddedTable _ _ _⟩
      · obtain ⟨rfl, hP, rfl⟩ := own
        exact ⟨_, .repeated hv hP, words_childTable _ _⟩
      · obtain ⟨j, w, m, rfl, plain, hm, hw, hP, rfl⟩ := inner
        exact ⟨_, .embedded hv plain hm hw (.inr hP), words_embeddedTable _ _ _⟩
    · rintro ⟨ws, hc, hn⟩
      cases hc with
      | map hv hP =>
        rw [← words_childTable, words_injective.eq_iff] at hn
        exact .inl ⟨_, hv, .inl ⟨rfl, hP, hn⟩⟩
      | repeated hv hP =>
        rw [← words_childTable, words_injective.eq_iff] at hn
        exact .inr (.inl ⟨_, hv, rfl, hP, hn⟩)
      | embedded hv plain hm hw hP =>
        rw [← words_embeddedTable, words_injective.eq_iff] at hn
        rcases hP with hP | hP
        · exact .inl ⟨_, hv, .inr ⟨_, _, _, rfl, plain, hm, hw, hP, hn⟩⟩
        · exact .inr (.inr ⟨_, hv, _, _, _, rfl, plain, hm, hw, hP, hn⟩)

end Harpia
