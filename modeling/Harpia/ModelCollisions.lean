import Harpia.ModelNames

namespace Harpia

open Text

variable {b : Backend} {types : Types}

theorem flatten_prefixed {fuel : Nat} {owner : String} {child : Message} {embedPath : List String}
    (h : embedPath ≠ []) :
    (flatten b types (fuel + 1) owner child embedPath true).1 =
      presenceColumn b owner embedPath :: child.visible.flatMap fun v =>
        (flattenVar b types (flatten b types fuel) owner child embedPath true v).1 := by
  simp [flatten, h, List.flatMap_map]

theorem flatten_element {fuel : Nat} {owner : String} {child : Message} {embedPath : List String} :
    (flatten b types (fuel + 1) owner child embedPath false).1 =
      child.visible.flatMap fun v =>
        (flattenVar b types (flatten b types fuel) owner child embedPath false v).1 := by
  simp [flatten, List.flatMap_map]

theorem words_presenceColumn (owner : String) (embedPath : List String) :
    words (presenceColumn b owner embedPath).name = columnWords true (words owner) := by
  have hj : "HARPIA_HAS_" ++ owner = "HARPIA_HAS" ++ "_" ++ owner := rfl
  simp only [presenceColumn, hj, words_join, columnWords, ↓reduceIte]

theorem embed_rank_lt {S : Schema} {m m' : Message} {v : Variable} (hm : m ∈ S.messages)
    (hv : v ∈ m.vars) (h : embedTarget S.types v = some m') :
    m' ∈ S.messages ∧ S.rank m' < S.rank m := by
  obtain ⟨-, -, target, ht, hl⟩ := embedTarget_eq_some h
  exact ⟨(typeRegistry_mem hl).1, S.declared_before m hm v hv m' h⟩

theorem mem_vars_of_visible {m : Message} {v : Variable} (h : v ∈ m.visible) : v ∈ m.vars :=
  List.mem_of_mem_filter h

/-- Column names below the field `v`, after the words `pre`. -/
def FieldSpells (types : Types) (pre : List (List Char)) (v : Variable) (key : Bool × List Nat)
    (ws : List (List Char)) : Prop :=
  ∃ path, ColumnOf types v key.1 key.2 path ∧ ws = columnWords key.1 (pre ++ pathWords path)

def FieldsSpell (types : Types) (pre : List (List Char)) (vs : List Variable)
    (key : Bool × List Nat) (ws : List (List Char)) : Prop :=
  ∃ i v is, vs[i]? = some v ∧ key.2 = i :: is ∧ FieldSpells types pre v (key.1, is) ws

theorem fieldSpells_of_column {pre : List (List Char)} {v : Variable} (h : HasColumn types v)
    (key : Bool × List Nat) (ws : List (List Char)) :
    FieldSpells types pre v key ws ↔ key = (false, []) ∧ ws = pre ++ words v.name := by
  constructor
  · rintro ⟨path, hc, rfl⟩
    obtain ⟨hp, his, rfl⟩ := (columnOf_of_column h).mp hc
    exact ⟨Prod.ext hp his, by simp [hp, columnWords, pathWords]⟩
  · rintro ⟨rfl, rfl⟩
    exact ⟨[v], .own h, by simp [columnWords, pathWords]⟩

theorem fieldSpells_of_embed {pre : List (List Char)} {v : Variable} {m : Message}
    (h : embedTarget types v = some m) (key : Bool × List Nat) (ws : List (List Char)) :
    FieldSpells types pre v key ws ↔
      (key = (true, []) ∧ ws = columnWords true (pre ++ words v.name)) ∨
        FieldsSpell types (pre ++ words v.name) m.visible key ws := by
  constructor
  · rintro ⟨path, hc, rfl⟩
    rcases (columnOf_of_embed h).mp hc with ⟨hp, his, rfl⟩ | ⟨i, is, path, w, hw, hi, his, rfl⟩
    · exact .inl ⟨Prod.ext hp his, by simp [hp, pathWords]⟩
    · exact .inr ⟨i, w, is, hw, his, path, hi, by simp [pathWords]⟩
  · rintro (⟨rfl, rfl⟩ | ⟨i, w, is, hw, his, path, hc, rfl⟩)
    · exact ⟨[v], .presence h, by simp [pathWords]⟩
    · exact ⟨v :: path, his ▸ .inner h hw hc, by simp [pathWords]⟩

theorem fieldSpells_of_neither {pre : List (List Char)} {v : Variable} (hc : ¬ HasColumn types v)
    (he : embedTarget types v = none) (key : Bool × List Nat) (ws : List (List Char)) :
    ¬ FieldSpells types pre v key ws :=
  fun ⟨_, h, _⟩ => columnOf_of_neither hc he h

/-- The column names an embed contributes, under the prefix `owner`. -/
theorem flatten_enumerates (S : Schema) {fuel : Nat} {owner : String} {m : Message}
    {embedPath : List String} (hm : m ∈ S.messages) (hr : S.rank m < fuel)
    (hp : embedPath ≠ []) :
    Enumerates ((flatten b S.types fuel owner m embedPath true).1.map Column.name)
      fun key name => (key = (true, []) ∧ words name = columnWords true (words owner)) ∨
        FieldsSpell S.types (words owner) m.visible key (words name) := by
  induction fuel generalizing owner m embedPath with
  | zero => omega
  | succ fuel ih =>
    have field : ∀ v ∈ m.visible, Enumerates
        ((flattenVar b S.types (flatten b S.types fuel) owner m embedPath true v).1.map
          Column.name) fun key name => FieldSpells S.types (words owner) v key (words name) := by
      intro v hv
      cases shape S.types v with
      | column h =>
        rw [flattenVar_of_column h]
        refine .singleton (false, []) fun key name => ?_
        rw [fieldSpells_of_column h, ← words_join, words_injective.eq_iff, if_pos rfl]
      | embed target h =>
        obtain ⟨ht, hlt⟩ := embed_rank_lt hm (mem_vars_of_visible hv) h
        rw [flattenVar_of_embed h]
        refine (ih ht (by omega) (by simp)).congr fun key name => ?_
        rw [fieldSpells_of_embed h, if_pos rfl, words_join]
      | neither hc he =>
        rw [flattenVar_of_neither hc he]
        exact .nil fun key name => fieldSpells_of_neither hc he key (words name)
    rw [flatten_prefixed hp, List.map_cons, List.map_flatMap]
    have first : Enumerates [(presenceColumn b owner embedPath).name] fun (key : Bool × List Nat) name =>
        key = (true, []) ∧ words name = columnWords true (words owner) :=
      .singleton _ fun key name => by rw [← words_presenceColumn, words_injective.eq_iff]
    refine first.append (.flatMap_path _ field) ?_
    rintro _ _ _ ⟨rfl, -⟩ ⟨i, v, is, -, hk, -⟩
    simp at hk

theorem mainColumn_iff {msg : Message} {key : Bool × List Nat} {ws : List (List Char)} :
    MainColumn types msg key.1 key.2 ws ↔ ∃ i v is, msg.vars[i]? = some v ∧ key.2 = i :: is ∧
      (FieldSpells types [] v (key.1, is) ws ∨
        Unresolved types v ∧ key.1 = false ∧ is = [] ∧ ws = words v.name) := by
  obtain ⟨p, is⟩ := key
  constructor
  · intro h
    cases h with
    | field hv hc => exact ⟨_, _, _, hv, rfl, .inl ⟨_, hc, rfl⟩⟩
    | unresolved hv hu => exact ⟨_, _, _, hv, rfl, .inr ⟨hu, rfl, rfl, rfl⟩⟩
  · rintro ⟨i, v, is, hv, rfl, ⟨path, hc, rfl⟩ | ⟨hu, rfl, rfl, rfl⟩⟩
    · exact .field hv hc
    · exact .unresolved hv hu

/-- The main-table column names of a message. -/
theorem analyze_enumerates (S : Schema) {msg : Message} (hm : msg ∈ S.messages) :
    Enumerates ((analyze b S.types S.fuel msg).1.map Column.name)
      fun (key : Bool × List Nat) name => MainColumn S.types msg key.1 key.2 (words name) := by
  have field : ∀ v ∈ msg.vars, Enumerates
      ((analyzeVar b S.types S.fuel msg v).1.map Column.name) fun (key : Bool × List Nat) name =>
        FieldSpells S.types [] v key (words name) ∨
          Unresolved S.types v ∧ key.1 = false ∧ key.2 = [] ∧ words name = words v.name := by
    intro v hv
    by_cases hu : Unresolved S.types v
    · rw [analyzeVar_of_column (.inr hu)]
      refine .singleton (false, []) fun key name => ?_
      have none : ¬ FieldSpells S.types [] v key (words name) :=
        fieldSpells_of_neither (unresolved_not_column hu) (unresolved_not_embed hu) key _
      simp [none, hu, Prod.ext_iff, and_assoc, words_injective.eq_iff]
    · simp only [hu, false_and, or_false]
      cases shape S.types v with
      | column h =>
        rw [analyzeVar_of_column (.inl h)]
        refine .singleton (false, []) fun key name => ?_
        rw [fieldSpells_of_column h, List.nil_append, words_injective.eq_iff]
      | embed target h =>
        obtain ⟨ht, hlt⟩ := embed_rank_lt hm hv h
        rw [analyzeVar_of_embed h]
        refine (flatten_enumerates S ht (S.rank_lt_fuel ht) (by simp)).congr fun key name => ?_
        rw [fieldSpells_of_embed h, List.nil_append]
      | neither hc he =>
        rw [analyzeVar_of_neither hc hu he]
        exact .nil fun key name => fieldSpells_of_neither hc he key (words name)
  have columns : (analyze b S.types S.fuel msg).1.map Column.name =
      msg.vars.flatMap fun v => (analyzeVar b S.types S.fuel msg v).1.map Column.name := by
    simp [analyze, List.flatMap_map, List.map_flatMap]
  rw [columns]
  exact (Enumerates.flatMap_path _ field).congr fun key name => mainColumn_iff.symm

/-- Element columns below the field `v`. -/
def FieldElement (types : Types) (v : Variable) (key : Unit × List Nat) (name : String) : Prop :=
  ∃ path w, ColumnOf types v false key.2 path ∧ path.getLast? = some w ∧ name = w.name

theorem fieldElement_of_column {v : Variable} (h : HasColumn types v)
    (key : Unit × List Nat) (name : String) :
    FieldElement types v key name ↔ key = ((), []) ∧ name = v.name := by
  constructor
  · rintro ⟨path, w, hc, hw, rfl⟩
    obtain ⟨-, his, rfl⟩ := (columnOf_of_column h).mp hc
    cases Option.some.inj hw
    exact ⟨Prod.ext rfl his, rfl⟩
  · rintro ⟨rfl, rfl⟩
    exact ⟨[v], v, .own h, rfl, rfl⟩

theorem fieldElement_of_embed {v : Variable} {m : Message} (h : embedTarget types v = some m)
    (key : Unit × List Nat) (name : String) :
    FieldElement types v key name ↔ ElementColumn types m key.2 name := by
  obtain ⟨u, is⟩ := key
  constructor
  · rintro ⟨path, w, hc, hw, rfl⟩
    rcases (columnOf_of_embed h).mp hc with ⟨hp, -⟩ | ⟨i, is', path', w', hw', hc', rfl, rfl⟩
    · simp at hp
    · refine .mk hw' hc' ?_
      cases hc' <;> simpa using hw
  · rintro ⟨hv, hc, hw⟩
    refine ⟨_, _, .inner h hv hc, ?_, rfl⟩
    rw [List.getLast?_cons, hw]
    rfl

/-- The element columns of a table-less message. -/
theorem flatten_element_enumerates (S : Schema) {fuel : Nat} {m : Message} (hm : m ∈ S.messages)
    (hr : S.rank m < fuel) (owner : String) (embedPath : List String) :
    Enumerates ((flatten b S.types fuel owner m embedPath false).1.map Column.name)
      fun (key : Unit × List Nat) name => ElementColumn S.types m key.2 name := by
  induction fuel generalizing owner m embedPath with
  | zero => omega
  | succ fuel ih =>
    have field : ∀ v ∈ m.visible, Enumerates
        ((flattenVar b S.types (flatten b S.types fuel) owner m embedPath false v).1.map
          Column.name) (FieldElement S.types v) := by
      intro v hv
      cases shape S.types v with
      | column h =>
        rw [flattenVar_of_column h]
        exact .singleton ((), []) (fieldElement_of_column h)
      | embed target h =>
        obtain ⟨ht, hlt⟩ := embed_rank_lt hm (mem_vars_of_visible hv) h
        rw [flattenVar_of_embed h]
        exact (ih ht (by omega) _ _).congr fun key name => (fieldElement_of_embed h key name).symm
      | neither hc he =>
        rw [flattenVar_of_neither hc he]
        exact .nil fun key name ⟨_, _, h, _⟩ => columnOf_of_neither hc he h
    rw [flatten_element, List.map_flatMap]
    refine (Enumerates.flatMap_path _ field).congr ?_
    rintro ⟨u, is⟩ name
    constructor
    · rintro ⟨i, v, is, hv, rfl, path, w, hc, hw, rfl⟩
      exact .mk hv hc hw
    · rintro ⟨hv, hc, hw⟩
      exact ⟨_, _, _, hv, rfl, _, _, hc, hw, rfl⟩

end Harpia
