import Harpia.ModelCollisions

namespace Harpia

open Text

/-- A field with its place in the message that declares it. -/
abbrev Place := Variable × Nat

def Message.places (m : Message) : List Place := m.vars.zipIdx

def Message.visiblePlaces (m : Message) : List Place := m.places.filter fun p => !isHidden p.1.name

theorem map_fst_places (m : Message) : m.places.map Prod.fst = m.vars := List.zipIdx_map_fst 0 m.vars

theorem map_fst_visiblePlaces (m : Message) : m.visiblePlaces.map Prod.fst = m.visible := by
  rw [Message.visible, ← map_fst_places, List.filter_map]
  rfl

/-- What the model emits for one field: the fields from the table message down to it, its columns
and its notes. -/
structure Emitted where
  path : List Place
  columns : List Column
  notes : List Note

def Emitted.under (p : Place) (e : Emitted) : Emitted := { e with path := p :: e.path }

/-- What one field contributes where it embeds no message. -/
def emitLeaf (p : Place) (out : Flattened) : List Emitted := [⟨[p], out.1, out.2⟩]

/-- What an embed contributes: its own columns, and what the fields of its message do. -/
def emitEmbed (p : Place) (columns : List Column) (inner : List Emitted) : List Emitted :=
  ⟨[p], columns, []⟩ :: inner.map (.under p)

/-- `_flatten` with the field each column and note is for. -/
def emittedIn (b : Backend) (types : Types) :
    Nat → String → Message → List String → Bool → List Emitted
  | 0, _, _, _, _ => []
  | fuel + 1, owner, child, embedPath, prefixed =>
    child.visiblePlaces.flatMap fun p =>
      let name := if prefixed then owner ++ "_" ++ p.1.name else p.1.name
      let path := if prefixed then embedPath ++ [lower p.1.name] else []
      (embedTarget types p.1).elim
        (emitLeaf p
          (flattenVar b types (fun _ _ _ _ => ([], [])) owner child embedPath prefixed p.1))
        fun m => emitEmbed p (if prefixed then [presenceColumn b name path] else [])
          (emittedIn b types fuel name m path prefixed)

/-- `analyze` with the field each column and note is for. -/
def emitted (b : Backend) (types : Types) (fuel : Nat) (msg : Message) : List Emitted :=
  msg.places.flatMap fun p =>
    (embedTarget types p.1).elim (emitLeaf p (analyzeVar b types 0 msg p.1)) fun m =>
      emitEmbed p [presenceColumn b p.1.name [lower p.1.name]]
        (emittedIn b types fuel p.1.name m [lower p.1.name] true)

/-- The columns and notes without the fields they are for. -/
def forget (es : List Emitted) : Flattened := (es.flatMap Emitted.columns, es.flatMap Emitted.notes)

theorem forget_embed (p : Place) (columns : List Column) (inner : List Emitted) :
    forget (emitEmbed p columns inner) = (columns ++ (forget inner).1, (forget inner).2) := by
  simp [forget, emitEmbed, List.flatMap_map, Emitted.under]

theorem forget_flatMap {α : Type} (l : List α) (f : α → List Emitted) :
    forget (l.flatMap f) =
      (l.flatMap fun a => (forget (f a)).1, l.flatMap fun a => (forget (f a)).2) := by
  simp [forget, List.flatMap_assoc]

theorem forget_leaf (p : Place) (out : Flattened) : forget (emitLeaf p out) = out := by
  simp [forget, emitLeaf]

/-- Without an embedded message, a field does not depend on how those are flattened. -/
theorem flattenVar_of_leaf {b : Backend} {types : Types}
    {recur recur' : String → Message → List String → Bool → Flattened} {owner : String}
    {child : Message} {embedPath : List String} {prefixed : Bool} {v : Variable}
    (h : embedTarget types v = none) :
    flattenVar b types recur owner child embedPath prefixed v =
      flattenVar b types recur' owner child embedPath prefixed v := by
  by_cases plain : v.typeMap = []
  · by_cases rep : .REPETEABLE ∈ v.modifiers
    · by_cases hs : isScalarToken v.type <;> simp [flattenVar, plain, rep, hs]
    · cases ht : v.type with
      | ID target =>
        have hl : ∀ m, lookupType types target ≠ some (.message, m) := by
          intro m hm
          simp [embedTarget, plain, rep, ht, hm] at h
        simp only [flattenVar, plain, rep, ht]
        cases hf : lookupType types target with
        | none => rfl
        | some found =>
          obtain ⟨k, m⟩ := found
          cases k with
          | message => exact absurd hf (hl m)
          | enum => rfl
          | table => rfl
      | _ => simp [flattenVar, plain, rep, ht]
  · simp [flattenVar, plain]

theorem analyzeVar_of_leaf {b : Backend} {types : Types} {fuel fuel' : Nat} {msg : Message}
    {v : Variable} (h : embedTarget types v = none) :
    analyzeVar b types fuel msg v = analyzeVar b types fuel' msg v := by
  by_cases plain : v.typeMap = []
  · by_cases rep : .REPETEABLE ∈ v.modifiers
    · simp [analyzeVar, plain, rep]
    · cases ht : v.type with
      | ID target =>
        have hl : ∀ m, lookupType types target ≠ some (.message, m) := by
          intro m hm
          simp [embedTarget, plain, rep, ht, hm] at h
        simp only [analyzeVar, plain, rep, ht]
        cases hf : lookupType types target with
        | none => rfl
        | some found =>
          obtain ⟨k, m⟩ := found
          cases k with
          | message => exact absurd hf (hl m)
          | enum => rfl
          | table => rfl
      | _ => simp [analyzeVar, plain, rep, ht]
  · simp [analyzeVar, plain]

theorem flatMap_visible {β : Type} (m : Message) (f : Variable → List β) :
    m.visible.flatMap f = m.visiblePlaces.flatMap fun p => f p.1 := by
  rw [← map_fst_visiblePlaces, List.flatMap_map]

/-- `_flatten` emits, field by field, what `emittedIn` lists. -/
theorem flatten_eq_emittedIn (S : Schema) {b : Backend} {fuel : Nat} {owner : String} {m : Message}
    {embedPath : List String} {prefixed : Bool} (hm : m ∈ S.messages) (hr : S.rank m < fuel) :
    flatten b S.types fuel owner m embedPath prefixed =
      ((if prefixed ∧ embedPath ≠ [] then [presenceColumn b owner embedPath] else []) ++
        (forget (emittedIn b S.types fuel owner m embedPath prefixed)).1,
        (forget (emittedIn b S.types fuel owner m embedPath prefixed)).2) := by
  induction fuel generalizing owner m embedPath with
  | zero => omega
  | succ fuel ih =>
    have field : ∀ p ∈ m.visiblePlaces,
        flattenVar b S.types (flatten b S.types fuel) owner m embedPath prefixed p.1 =
          forget ((embedTarget S.types p.1).elim
            (emitLeaf p
              (flattenVar b S.types (fun _ _ _ _ => ([], [])) owner m embedPath prefixed p.1))
            fun m => emitEmbed p
              (if prefixed then
                [presenceColumn b (if prefixed then owner ++ "_" ++ p.1.name else p.1.name)
                  (if prefixed then embedPath ++ [lower p.1.name] else [])] else [])
              (emittedIn b S.types fuel (if prefixed then owner ++ "_" ++ p.1.name else p.1.name) m
                (if prefixed then embedPath ++ [lower p.1.name] else []) prefixed)) := by
      intro p hp
      have hv : p.1 ∈ m.visible := by
        rw [← map_fst_visiblePlaces]
        exact List.mem_map_of_mem hp
      cases he : embedTarget S.types p.1 with
      | none =>
        rw [Option.elim_none, forget_leaf]
        exact flattenVar_of_leaf he
      | some target =>
        obtain ⟨ht, hlt⟩ := embed_rank_lt hm (mem_vars_of_visible hv) he
        rw [Option.elim_some, forget_embed, flattenVar_of_embed he, ih ht (by omega)]
        cases prefixed <;> simp
    rw [emittedIn, forget_flatMap]
    simp only [flatten, List.flatMap_map, flatMap_visible, Prod.mk.injEq]
    constructor
    · rw [List.flatMap_congr fun p hp => congrArg Prod.fst (field p hp)]
    · rw [List.flatMap_congr fun p hp => congrArg Prod.snd (field p hp)]

/-- `analyze` emits, field by field, what `emitted` lists. -/
theorem analyze_eq_emitted (S : Schema) {b : Backend} {msg : Message} (hm : msg ∈ S.messages) :
    analyze b S.types S.fuel msg = forget (emitted b S.types S.fuel msg) := by
  have field : ∀ p ∈ msg.places, analyzeVar b S.types S.fuel msg p.1 =
      forget ((embedTarget S.types p.1).elim (emitLeaf p (analyzeVar b S.types 0 msg p.1)) fun m =>
        emitEmbed p [presenceColumn b p.1.name [lower p.1.name]]
          (emittedIn b S.types S.fuel p.1.name m [lower p.1.name] true)) := by
    intro p hp
    have hv : p.1 ∈ msg.vars := by
      rw [← map_fst_places]
      exact List.mem_map_of_mem hp
    cases he : embedTarget S.types p.1 with
    | none =>
      rw [Option.elim_none, forget_leaf]
      exact analyzeVar_of_leaf he
    | some target =>
      obtain ⟨ht, hlt⟩ := embed_rank_lt hm hv he
      rw [Option.elim_some, forget_embed, analyzeVar_of_embed he,
        flatten_eq_emittedIn S ht (S.rank_lt_fuel ht)]
      simp
  rw [emitted, forget_flatMap, analyze, ← map_fst_places]
  simp only [List.flatMap_map, List.map_map, Function.comp_apply, Prod.mk.injEq]
  constructor
  · rw [List.flatMap_congr fun p hp => congrArg Prod.fst (field p hp)]
  · rw [List.flatMap_congr fun p hp => congrArg Prod.snd (field p hp)]

/-- An entry for a child table, with the field it is for. -/
structure Traced (α : Type) where
  path : List Place
  entry : α

def traced {α : Type} (path : List Place) (entries : List α) : List (Traced α) :=
  entries.map fun e => ⟨path, e⟩

def embeddedMap (b : Backend) (table embed : String) (v : Variable) : List MapField :=
  if v.typeMap ≠ [] then (mapField b table v (some embed)).toList else []

/-- `map_fields` with the field each entry is for. -/
def tracedMaps (b : Backend) (types : Types) (msg : Message) : List (Traced MapField) :=
  if msg.tableName = "" then []
  else msg.places.flatMap fun p =>
    if p.1.typeMap ≠ [] then traced [p] (mapField b msg.tableName p.1 none).toList
    else (composedTarget types p.1).elim [] fun target => target.visiblePlaces.flatMap fun q =>
      traced [p, q] (embeddedMap b msg.tableName (lower p.1.name) q.1)

def embeddedScalar (b : Backend) (table embed : String) (v : Variable) : List RepeatedField :=
  if v.typeMap ≠ [] ∨ .REPETEABLE ∉ v.modifiers then []
  else ((scalar b v.type).map fun found =>
    .scalar (table ++ "__" ++ embed ++ "_" ++ v.name) (lower v.name) found.1 found.2 none
      (some embed) none).toList

/-- `repeated_fields` with the field each entry is for. -/
def tracedRepeateds (b : Backend) (types : Types) (fuel : Nat) (msg : Message) :
    List (Traced RepeatedField) :=
  if msg.tableName = "" then []
  else (msg.places.flatMap fun p =>
      traced [p] (directRepeated b types fuel msg.tableName p.1)) ++
    msg.places.flatMap fun p =>
      if p.1.typeMap ≠ [] then []
      else (composedTarget types p.1).elim [] fun target => target.visiblePlaces.flatMap fun q =>
        traced [p, q] (embeddedScalar b msg.tableName (lower p.1.name) q.1)

theorem map_entry_traced {α : Type} (path : List Place) (entries : List α) :
    (traced path entries).map Traced.entry = entries := by
  simp [traced, Function.comp_def]

theorem flatMap_places {β : Type} (m : Message) (f : Variable → List β) :
    m.vars.flatMap f = m.places.flatMap fun p => f p.1 := by
  rw [← map_fst_places, List.flatMap_map]

theorem mapFields_eq_traced (b : Backend) (types : Types) (msg : Message) :
    mapFields b types msg = (tracedMaps b types msg).map Traced.entry := by
  unfold mapFields tracedMaps
  split
  · rfl
  · rw [flatMap_places, List.map_flatMap]
    refine List.flatMap_congr fun p _ => ?_
    unfold mapFieldsOf
    split
    · rw [map_entry_traced]
    · cases composedTarget types p.1 with
      | none => rfl
      | some target =>
        simp only [flatMap_visible, Option.elim_some, List.map_flatMap, map_entry_traced]
        rfl

theorem repeatedFields_eq_traced (b : Backend) (types : Types) (fuel : Nat) (msg : Message) :
    repeatedFields b types fuel msg = (tracedRepeateds b types fuel msg).map Traced.entry := by
  unfold repeatedFields tracedRepeateds
  split
  · rfl
  · rw [flatMap_places, flatMap_places, List.map_append, List.map_flatMap, List.map_flatMap]
    congr 1
    · exact List.flatMap_congr fun p _ => (map_entry_traced _ _).symm
    · refine List.flatMap_congr fun p _ => ?_
      unfold embeddedRepeated
      split
      · rfl
      · cases composedTarget types p.1 with
        | none => rfl
        | some target =>
          simp only [flatMap_visible, Option.elim_some, List.map_flatMap, map_entry_traced]
          refine List.flatMap_congr fun q _ => ?_
          unfold embeddedScalar
          split
          · rfl
          · cases scalar b q.1.type <;> rfl

end Harpia
