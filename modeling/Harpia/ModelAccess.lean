import Harpia.Dao
import Harpia.ModelChildTables
import Harpia.ModelTrace

namespace Harpia

open Text

/-- The accessors a column is read and written through, from the table message. -/
def Column.accessPath (c : Column) : List String :=
  if c.presenceOf ≠ [] then c.presenceOf
  else if c.embed ≠ [] then c.embed ++ c.childAccessor.toList
  else [lower c.name]

/-- The accessors of an element column, from the element message. -/
def Column.elementPath (c : Column) : List String := c.childAccessor.toList

def MapField.accessPath (f : MapField) : List String := f.embed.toList ++ [f.field]

def RepeatedField.accessPath : RepeatedField → List String
  | .scalar _ field _ _ _ embed _ => embed.toList ++ [field]
  | .composed _ field _ _ => [field]

/-- The fields of a message with a given accessor. -/
def Message.accessed (m : Message) (accessor : String) : List Place :=
  m.places.filter fun p => lower p.1.name = accessor

/-- The fields a chain of accessors goes through: one field per accessor, and each but the last a
singular message field. -/
def resolve (types : Types) : Message → List String → Option (List Place)
  | _, [] => none
  | m, [accessor] => if (m.accessed accessor).length = 1 then some (m.accessed accessor) else none
  | m, accessor :: steps =>
    if (m.accessed accessor).length = 1 then
      (m.accessed accessor).head?.bind fun p => (embedTarget types p.1).bind fun m' =>
        (resolve types m' steps).map fun path => p :: path
    else none

/-- Every entry of the model has an access path that ends at the field it is for. -/
structure PathsReach (b : Backend) (S : Schema) (msg : Message) : Prop where
  columns : ∀ e ∈ emitted b S.types S.fuel msg, ∀ c ∈ e.columns,
    resolve S.types msg c.accessPath = some e.path
  maps : ∀ e ∈ tracedMaps b S.types msg, resolve S.types msg e.entry.accessPath = some e.path
  repeateds : ∀ e ∈ tracedRepeateds b S.types S.fuel msg,
    resolve S.types msg e.entry.accessPath = some e.path
  elements : ∀ p ∈ msg.places, p.1.typeMap = [] → .REPETEABLE ∈ p.1.modifiers →
    ∀ m, composedTarget S.types p.1 = some m →
      ∀ e ∈ emittedIn b S.types S.fuel p.1.name m [] false, ∀ c ∈ e.columns,
        resolve S.types m c.elementPath = some e.path

def AllPathsReach (b : Backend) (S : Schema) : Prop :=
  ∀ msg ∈ S.messages, msg.tableName ≠ "" → PathsReach b S msg

/-- The fields below some fields, through singular table-less messages. -/
inductive Chain (types : Types) : List Place → List Place → Prop
  | last {places : List Place} {p : Place} (hp : p ∈ places) : Chain types places [p]
  | step {places path : List Place} {p : Place} {m : Message} (hp : p ∈ places)
      (hm : embedTarget types p.1 = some m) (h : Chain types m.visiblePlaces path) :
      Chain types places (p :: path)

/-- No other field of the message has the same name up to case. -/
def Alone (m : Message) (v : Variable) : Prop := (m.accessed (lower v.name)).length = 1

/-- Every field of a path is alone with its name. -/
def ClearPath (types : Types) : Message → List Place → Prop
  | _, [] => True
  | m, p :: path => Alone m p.1 ∧ ∀ m', embedTarget types p.1 = some m' → ClearPath types m' path

/-- Names are unique up to case wherever a field is stored; no repeated message has a map or a
repeated scalar inside; and the elements of a repeated message have their columns directly in
them. -/
structure AccessClear (types : Types) (msg : Message) : Prop where
  columns : ∀ path p, Chain types msg.places (path ++ [p]) →
    (HasColumn types p.1 ∨ (embedTarget types p.1).isSome ∨ path = [] ∧ Unresolved types p.1) →
      ClearPath types msg (path ++ [p])
  children : ∀ p ∈ msg.places,
    ScalarMap p.1 ∨ RepeatedScalar p.1 ∨ RepeatedMessage types p.1 → Alone msg p.1
  embedded : ∀ p ∈ msg.places, p.1.typeMap = [] → ∀ m, composedTarget types p.1 = some m →
    ∀ q ∈ m.visiblePlaces, ScalarMap q.1 ∨ RepeatedScalar q.1 →
      .REPETEABLE ∉ p.1.modifiers ∧ Alone m q.1
  elements : ∀ p ∈ msg.places, p.1.typeMap = [] → .REPETEABLE ∈ p.1.modifiers →
    ∀ m, composedTarget types p.1 = some m → ∀ path q, Chain types m.visiblePlaces (path ++ [q]) →
      HasColumn types q.1 → path = [] ∧ Alone m q.1

def AllAccessClear (S : Schema) : Prop :=
  ∀ msg ∈ S.messages, msg.tableName ≠ "" → AccessClear S.types msg

variable {b : Backend} {types : Types}

theorem accessed_of_alone {m : Message} {p : Place} (hp : p ∈ m.places) (h : Alone m p.1) :
    m.accessed (lower p.1.name) = [p] := by
  obtain ⟨q, hq⟩ := List.length_eq_one_iff.mp h
  have mem : p ∈ m.accessed (lower p.1.name) := List.mem_filter.mpr ⟨hp, by simp⟩
  rw [hq] at mem
  rw [hq, List.mem_singleton.mp mem]

theorem mem_places_of_visible {m : Message} {p : Place} (h : p ∈ m.visiblePlaces) : p ∈ m.places :=
  List.mem_of_mem_filter h

/-- The accessors of a path. -/
def accessors (path : List Place) : List String := path.map fun p => lower p.1.name

/-- A chain of accessors reaches the path they are taken from exactly if its names are clear. -/
theorem resolve_accessors {m : Message} {places path : List Place} (hs : places ⊆ m.places)
    (hc : Chain types places path) :
    resolve types m (accessors path) = some path ↔ ClearPath types m path := by
  induction hc generalizing m with
  | @last places p hp =>
    have clear : ClearPath types m [p] ↔ Alone m p.1 :=
      ⟨fun h => h.1, fun h => ⟨h, fun _ _ => trivial⟩⟩
    rw [clear]
    simp only [accessors, List.map_cons, List.map_nil, resolve]
    constructor
    · intro h
      by_contra hn
      have none : ¬ (m.accessed (lower p.1.name)).length = 1 := hn
      rw [if_neg none] at h
      simp at h
    · intro h
      have one : (m.accessed (lower p.1.name)).length = 1 := h
      rw [if_pos one, accessed_of_alone (hs hp) h]
  | @step places path p m' hp hm hc ih =>
    have clear : ClearPath types m (p :: path) ↔ Alone m p.1 ∧ ClearPath types m' path := by
      constructor
      · exact fun h => ⟨h.1, h.2 m' hm⟩
      · rintro ⟨h₁, h₂⟩
        refine ⟨h₁, fun m'' hm'' => ?_⟩
        rw [hm, Option.some.injEq] at hm''
        exact hm'' ▸ h₂
    have more : ∃ a as, accessors path = a :: as := by cases hc <;> exact ⟨_, _, rfl⟩
    obtain ⟨a, as, more⟩ := more
    rw [clear, ← ih fun q hq => mem_places_of_visible hq]
    simp only [accessors, List.map_cons] at more ⊢
    rw [more, resolve]
    · by_cases h : Alone m p.1
      · have one : (m.accessed (lower p.1.name)).length = 1 := h
        rw [if_pos one, accessed_of_alone (hs hp) h]
        simp [hm, h]
      · have none : ¬ (m.accessed (lower p.1.name)).length = 1 := h
        rw [if_neg none]
        simp [h]
    · simp

theorem find_of_accessed {m : Message} {accessor : String} {p : Place}
    (h : m.accessed accessor = [p]) : m.vars.find? (fun v => lower v.name = accessor) = some p.1 := by
  have head : (m.places.filter fun q => lower q.1.name = accessor).head? = some p := by
    rw [Message.accessed] at h
    rw [h]
    rfl
  rw [List.head?_filter] at head
  rw [← map_fst_places, List.find?_map]
  have same : m.places.find? ((fun v : Variable => decide (lower v.name = accessor)) ∘ Prod.fst) =
      some p := head
  rw [same]
  rfl

/-- Where the accessors are unambiguous, `_walk` spells out the fields they reach. -/
theorem walk_of_resolve {m : Message} {steps : List String} {path : List Place}
    (h : resolve types m steps = some path) :
    walk types m steps = some (path.map fun p => p.1.name) := by
  induction steps generalizing m path with
  | nil => simp [resolve] at h
  | cons accessor steps ih =>
    have one : (m.accessed accessor).length = 1 := by
      by_contra hn
      cases steps <;> simp [resolve, hn] at h
    obtain ⟨p, hp⟩ := List.length_eq_one_iff.mp one
    rw [walk, find_of_accessed hp, Option.bind_some]
    cases steps with
    | nil =>
      rw [resolve, hp] at h
      cases Option.some.inj h
      rfl
    | cons next steps =>
      rw [resolve, hp] at h
      · simp only [List.length_singleton, ↓reduceIte, List.head?_cons, Option.bind_some] at h
        obtain ⟨m', hm', h⟩ := Option.bind_eq_some_iff.mp h
        obtain ⟨path', hr, rfl⟩ := Option.map_eq_some_iff.mp h
        obtain ⟨-, -, target, ht, hl⟩ := embedTarget_eq_some hm'
        simp only [ht, hl, Option.map_some, Option.getD_some, ih hr, List.map_cons]
      · simp

theorem flattenVar_column {recur : String → Message → List String → Bool → Flattened}
    {owner : String} {child : Message} {embedPath : List String} {prefixed : Bool} {v : Variable}
    {c : Column} (h : HasColumn types v)
    (hc : c ∈ (flattenVar b types recur owner child embedPath prefixed v).1) :
    c.presenceOf = [] ∧ c.embed = (if prefixed then embedPath else []) ∧
      c.childAccessor = some (lower v.name) := by
  obtain ⟨plain, single, hs | ⟨target, k, m, ht, hl, hk⟩⟩ := h
  · cases ht : v.type <;> simp_all [flattenVar, isScalarToken, scalar]
  · cases k <;> simp_all [flattenVar]

theorem analyzeVar_column {fuel : Nat} {msg : Message} {v : Variable} {c : Column}
    (h : HasColumn types v ∨ Unresolved types v) (hc : c ∈ (analyzeVar b types fuel msg v).1) :
    c.presenceOf = [] ∧ c.embed = [] ∧ c.name = v.name := by
  obtain ⟨plain, single, hs | ⟨target, k, m, ht, hl, hk⟩⟩ | ⟨plain, single, target, ht, hl⟩ := h
  · cases ht : v.type <;> simp_all [analyzeVar, isScalarToken, scalar]
  · cases k <;> simp_all [analyzeVar]
  · simp_all [analyzeVar]

/-- What `emittedIn` lists: each column is for the field at the end of a chain, and its accessors
are those of the chain (with a prefix) or only the last of them (in an element). -/
structure ColumnAt (types : Types) (places : List Place) (embedPath : List String) (prefixed : Bool)
    (path : List Place) (c : Column) : Prop where
  chain : Chain types places path
  stored : ∃ above p, path = above ++ [p] ∧
    (HasColumn types p.1 ∨ prefixed = true ∧ (embedTarget types p.1).isSome)
  access : prefixed = true → c.accessPath = embedPath ++ accessors path
  element : prefixed = false → ∃ above p, path = above ++ [p] ∧ c.elementPath = [lower p.1.name]

theorem ColumnAt.under {places : List Place} {embedPath : List String} {prefixed : Bool}
    {path : List Place} {c : Column} {p : Place} {m : Message} (hp : p ∈ places)
    (he : embedTarget types p.1 = some m)
    (h : ColumnAt types m.visiblePlaces
      (if prefixed then embedPath ++ [lower p.1.name] else []) prefixed path c) :
    ColumnAt types places embedPath prefixed (p :: path) c := by
  refine ⟨.step hp he h.chain, ?_, ?_, ?_⟩
  · obtain ⟨above, q, rfl, hq⟩ := h.stored
    exact ⟨p :: above, q, rfl, hq⟩
  · intro hpre
    have access := h.access hpre
    rw [if_pos hpre] at access
    rw [access, List.append_assoc]
    rfl
  · intro hpre
    obtain ⟨above, q, rfl, hq⟩ := h.element hpre
    exact ⟨p :: above, q, rfl, hq⟩

theorem columnAt_leaf {places : List Place} {recur : String → Message → List String → Bool → Flattened}
    {owner : String} {child : Message} {embedPath : List String} {prefixed : Bool} {p : Place}
    {c : Column} (hp : p ∈ places) (he : embedTarget types p.1 = none)
    (hpath : prefixed = true → embedPath ≠ [])
    (hc : c ∈ (flattenVar b types recur owner child embedPath prefixed p.1).1) :
    ColumnAt types places embedPath prefixed [p] c := by
  have column : HasColumn types p.1 := by
    by_contra hn
    simp [flattenVar_of_neither hn he] at hc
  obtain ⟨presence, embed, accessor⟩ := flattenVar_column column hc
  refine ⟨.last hp, ⟨[], p, rfl, .inl column⟩, ?_, ?_⟩
  · intro hpre
    rw [if_pos hpre] at embed
    rw [Column.accessPath, presence, embed, accessor]
    simp [hpath hpre, accessors]
  · intro _
    exact ⟨[], p, rfl, by rw [Column.elementPath, accessor]; rfl⟩

theorem emittedIn_columnAt {fuel : Nat} {owner : String} {m : Message} {embedPath : List String}
    {prefixed : Bool} (hpath : prefixed = true → embedPath ≠ []) {e : Emitted}
    (he : e ∈ emittedIn b types fuel owner m embedPath prefixed) {c : Column} (hc : c ∈ e.columns) :
    ColumnAt types m.visiblePlaces embedPath prefixed e.path c := by
  induction fuel generalizing owner m embedPath e with
  | zero => simp [emittedIn] at he
  | succ fuel ih =>
    rw [emittedIn] at he
    obtain ⟨p, hp, he⟩ := List.mem_flatMap.mp he
    cases ht : embedTarget types p.1 with
    | none =>
      rw [ht, Option.elim_none, emitLeaf, List.mem_singleton] at he
      subst he
      exact columnAt_leaf hp ht hpath hc
    | some target =>
      simp only [ht, Option.elim_some, emitEmbed] at he
      have inner : prefixed = true →
          (if prefixed then embedPath ++ [lower p.1.name] else []) ≠ [] := by
        intro hpre
        simp [hpre]
      rcases List.mem_cons.mp he with rfl | he
      · cases hpre : prefixed with
        | false => simp [hpre] at hc
        | true =>
          simp only [hpre, ↓reduceIte, List.mem_singleton] at hc
          subst hc
          refine ⟨.last hp, ⟨[], p, rfl, .inr ⟨rfl, by simp [ht]⟩⟩, fun _ => ?_, by simp⟩
          simp [Column.accessPath, presenceColumn, accessors]
      · obtain ⟨e', he', rfl⟩ := List.mem_map.mp he
        exact ColumnAt.under hp ht (ih inner he' hc)

theorem exists_mem_of_names {columns : List Column} {name : String}
    (h : columns.map Column.name = [name]) : ∃ c, c ∈ columns := by
  cases columns with
  | nil => simp at h
  | cons c columns => exact ⟨c, List.mem_cons_self⟩

theorem chain_cons {places path : List Place} {p : Place} (h : Chain types places (p :: path)) :
    p ∈ places ∧ (path = [] ∨
      ∃ m, embedTarget types p.1 = some m ∧ Chain types m.visiblePlaces path) := by
  generalize he : p :: path = whole at h
  cases h with
  | last hp =>
    obtain ⟨rfl, rfl⟩ := List.cons.inj he
    exact ⟨hp, .inl rfl⟩
  | step hp hm hc =>
    obtain ⟨rfl, rfl⟩ := List.cons.inj he
    exact ⟨hp, .inr ⟨_, hm, hc⟩⟩

theorem emitLeaf_exists {p : Place} {out : Flattened} {name : String}
    (h : out.1.map Column.name = [name]) :
    ∃ e ∈ emitLeaf p out, e.path = [p] ∧ ∃ c, c ∈ e.columns := by
  obtain ⟨c, hc⟩ := exists_mem_of_names h
  exact ⟨⟨[p], out.1, out.2⟩, List.mem_singleton_self _, rfl, c, hc⟩

/-- Every stored field below an embedded message has a column. -/
theorem emittedIn_exists (S : Schema) {fuel : Nat} {owner : String} {m : Message}
    {embedPath : List String} {prefixed : Bool} (hm : m ∈ S.messages) (hr : S.rank m < fuel)
    {above : List Place} {q : Place} (hc : Chain S.types m.visiblePlaces (above ++ [q]))
    (stored : HasColumn S.types q.1 ∨ prefixed = true ∧ (embedTarget S.types q.1).isSome) :
    ∃ e ∈ emittedIn b S.types fuel owner m embedPath prefixed, e.path = above ++ [q] ∧
      ∃ c, c ∈ e.columns := by
  induction fuel generalizing owner m embedPath above with
  | zero => omega
  | succ fuel ih =>
    rw [emittedIn]
    cases above with
    | nil =>
      obtain ⟨hq, -⟩ := chain_cons hc
      rcases stored with hcol | ⟨hpre, hemb⟩
      · have names : (flattenVar b S.types (fun _ _ _ _ => ([], [])) owner m embedPath prefixed
            q.1).1.map Column.name = [if prefixed then owner ++ "_" ++ q.1.name else q.1.name] :=
          flattenVar_of_column hcol
        obtain ⟨e, he, found⟩ := emitLeaf_exists names
        refine ⟨e, List.mem_flatMap.mpr ⟨q, hq, ?_⟩, found⟩
        simp only [hasColumn_not_embed hcol, Option.elim_none]
        exact he
      · obtain ⟨t, ht⟩ := Option.isSome_iff_exists.mp hemb
        subst hpre
        refine ⟨⟨[q], [presenceColumn b (owner ++ "_" ++ q.1.name)
          (embedPath ++ [lower q.1.name])], []⟩, List.mem_flatMap.mpr ⟨q, hq, ?_⟩, rfl, _,
          List.mem_singleton_self _⟩
        simp only [ht, Option.elim_some, emitEmbed]
        exact List.mem_cons_self
    | cons p above =>
      obtain ⟨hp, hnil | ⟨t, ht, hc⟩⟩ := chain_cons hc
      · simp at hnil
      · have hv : p.1 ∈ m.visible := by
          rw [← map_fst_visiblePlaces]
          exact List.mem_map_of_mem hp
        obtain ⟨htm, hlt⟩ := embed_rank_lt hm (mem_vars_of_visible hv) ht
        have inner : ∃ e ∈ emittedIn b S.types fuel
            (if prefixed then owner ++ "_" ++ p.1.name else p.1.name) t
            (if prefixed then embedPath ++ [lower p.1.name] else []) prefixed,
            e.path = above ++ [q] ∧ ∃ c, c ∈ e.columns := ih htm (by omega) hc
        obtain ⟨e, he, hpath, c, hce⟩ := inner
        refine ⟨e.under p, List.mem_flatMap.mpr ⟨p, hp, ?_⟩, ?_, c, hce⟩
        · simp only [ht, Option.elim_some, emitEmbed]
          exact List.mem_cons_of_mem _ (List.mem_map_of_mem he)
        · rw [Emitted.under, hpath]
          rfl

/-- The columns of the table message: their accessors are those of their fields. -/
theorem emitted_column {fuel : Nat} {msg : Message} {e : Emitted}
    (he : e ∈ emitted b types fuel msg) {c : Column} (hc : c ∈ e.columns) :
    c.accessPath = accessors e.path ∧ Chain types msg.places e.path ∧ ∃ above p,
      e.path = above ++ [p] ∧ (HasColumn types p.1 ∨ (embedTarget types p.1).isSome ∨
        above = [] ∧ Unresolved types p.1) := by
  rw [emitted] at he
  obtain ⟨p, hp, he⟩ := List.mem_flatMap.mp he
  cases ht : embedTarget types p.1 with
  | none =>
    rw [ht, Option.elim_none, emitLeaf, List.mem_singleton] at he
    subst he
    have stored : HasColumn types p.1 ∨ Unresolved types p.1 := by
      by_contra hn
      obtain ⟨hcol, hun⟩ := not_or.mp hn
      simp [analyzeVar_of_neither hcol hun ht] at hc
    obtain ⟨presence, embed, name⟩ := analyzeVar_column stored hc
    refine ⟨?_, .last hp, [], p, rfl, stored.imp id fun h => .inr ⟨rfl, h⟩⟩
    rw [Column.accessPath, presence, embed, name]
    rfl
  | some target =>
    simp only [ht, Option.elim_some, emitEmbed] at he
    rcases List.mem_cons.mp he with rfl | he
    · cases List.mem_singleton.mp hc
      exact ⟨rfl, .last hp, [], p, rfl, .inr (.inl (by simp [ht]))⟩
    · obtain ⟨e', he', rfl⟩ := List.mem_map.mp he
      have inner := emittedIn_columnAt (by simp) he' hc
      obtain ⟨above, q, hpath, stored⟩ := inner.stored
      refine ⟨?_, .step hp ht inner.chain, p :: above, q, ?_, stored.imp id fun h => .inl h.2⟩
      · rw [inner.access rfl]
        rfl
      · rw [Emitted.under, hpath]
        rfl

/-- Every stored field below the table message has a column. -/
theorem emitted_exists (S : Schema) {msg : Message} (hm : msg ∈ S.messages) {above : List Place}
    {q : Place} (hc : Chain S.types msg.places (above ++ [q]))
    (stored : HasColumn S.types q.1 ∨ (embedTarget S.types q.1).isSome ∨
      above = [] ∧ Unresolved S.types q.1) :
    ∃ e ∈ emitted b S.types S.fuel msg, e.path = above ++ [q] ∧ ∃ c, c ∈ e.columns := by
  rw [emitted]
  cases above with
  | nil =>
    obtain ⟨hq, -⟩ := chain_cons hc
    by_cases hemb : (embedTarget S.types q.1).isSome
    · obtain ⟨t, ht⟩ := Option.isSome_iff_exists.mp hemb
      refine ⟨⟨[q], [presenceColumn b q.1.name [lower q.1.name]], []⟩,
        List.mem_flatMap.mpr ⟨q, hq, ?_⟩, rfl, _, List.mem_singleton_self _⟩
      simp only [ht, Option.elim_some, emitEmbed]
      exact List.mem_cons_self
    · have leaf : HasColumn S.types q.1 ∨ Unresolved S.types q.1 :=
        stored.imp id fun h => (h.resolve_left hemb).2
      have names : (analyzeVar b S.types 0 msg q.1).1.map Column.name = [q.1.name] :=
        analyzeVar_of_column leaf
      obtain ⟨e, he, found⟩ := emitLeaf_exists names
      refine ⟨e, List.mem_flatMap.mpr ⟨q, hq, ?_⟩, found⟩
      simp only [Option.not_isSome_iff_eq_none.mp hemb, Option.elim_none]
      exact he
  | cons p above =>
    obtain ⟨hp, hnil | ⟨t, ht, hc⟩⟩ := chain_cons hc
    · simp at hnil
    · have hv : p.1 ∈ msg.vars := by
        rw [← map_fst_places]
        exact List.mem_map_of_mem hp
      obtain ⟨htm, -⟩ := embed_rank_lt hm hv ht
      have below : HasColumn S.types q.1 ∨ true = true ∧ (embedTarget S.types q.1).isSome := by
        rcases stored with h | h | ⟨h, -⟩
        · exact .inl h
        · exact .inr ⟨rfl, h⟩
        · simp at h
      have inner : ∃ e ∈ emittedIn b S.types S.fuel p.1.name t [lower p.1.name] true,
          e.path = above ++ [q] ∧ ∃ c, c ∈ e.columns :=
        emittedIn_exists S htm (S.rank_lt_fuel htm) hc below
      obtain ⟨e, he, hpath, c, hce⟩ := inner
      refine ⟨e.under p, List.mem_flatMap.mpr ⟨p, hp, ?_⟩, ?_, c, hce⟩
      · simp only [ht, Option.elim_some, emitEmbed]
        exact List.mem_cons_of_mem _ (List.mem_map_of_mem he)
      · rw [Emitted.under, hpath]
        rfl

theorem resolve_single {m : Message} {p : Place} (hp : p ∈ m.places) :
    resolve types m [lower p.1.name] = some [p] ↔ Alone m p.1 := by
  have chain : Chain types m.places [p] := .last hp
  have clear := resolve_accessors (fun _ h => h) chain
  exact clear.trans ⟨fun h => h.1, fun h => ⟨h, fun _ _ => trivial⟩⟩

theorem embedTarget_of_composed {v : Variable} {m : Message} (plain : v.typeMap = [])
    (h : composedTarget types v = some m) :
    embedTarget types v = if .REPETEABLE ∈ v.modifiers then none else some m := by
  obtain ⟨target, ht, hl⟩ := composedTarget_eq_some h
  by_cases rep : .REPETEABLE ∈ v.modifiers <;> simp [embedTarget, plain, rep, ht, hl]

/-- Through a repeated message field there is no access path. -/
theorem resolve_pair {msg m : Message} {p q : Place} (hp : p ∈ msg.places) (hq : q ∈ m.visiblePlaces)
    (plain : p.1.typeMap = []) (hm : composedTarget types p.1 = some m) :
    resolve types msg [lower p.1.name, lower q.1.name] = some [p, q] ↔
      Alone msg p.1 ∧ .REPETEABLE ∉ p.1.modifiers ∧ Alone m q.1 := by
  have target := embedTarget_of_composed plain hm
  by_cases rep : .REPETEABLE ∈ p.1.modifiers
  · rw [if_pos rep] at target
    constructor
    · intro h
      rw [resolve] at h
      · split at h
        next one =>
          rw [accessed_of_alone hp one] at h
          simp [target] at h
        next => simp at h
      · simp
    · exact fun h => absurd rep h.2.1
  · rw [if_neg rep] at target
    have chain : Chain types msg.places [p, q] := .step hp target (.last hq)
    refine (resolve_accessors (fun _ h => h) chain).trans ?_
    constructor
    · exact fun h => ⟨h.1, rep, (h.2 m target).1⟩
    · rintro ⟨h₁, -, h₂⟩
      refine ⟨h₁, fun m' hm' => ?_⟩
      rw [target, Option.some.injEq] at hm'
      exact hm' ▸ ⟨h₂, fun _ _ => trivial⟩

theorem mapField_access {table : String} {v : Variable} {embed : Option String} {f : MapField}
    (h : mapField b table v embed = some f) : f.accessPath = embed.toList ++ [lower v.name] := by
  unfold mapField at h
  split at h
  · cases Option.some.inj h
    rfl
  · simp at h

theorem directRepeated_access {fuel : Nat} {table : String} {v : Variable} {r : RepeatedField}
    (h : r ∈ directRepeated b types fuel table v) : r.accessPath = [lower v.name] := by
  unfold directRepeated at h
  extract_lets child at h
  split at h
  · simp at h
  · split at h
    · split at h
      · cases List.mem_singleton.mp h
        rfl
      · extract_lets cols at h
        split at h
        · cases List.mem_singleton.mp h
          rfl
        · simp at h
      · simp at h
    · split at h
      · cases List.mem_singleton.mp h
        rfl
      · simp at h

theorem directRepeated_exists (S : Schema) (table : String) (v : Variable) :
    (∃ r, r ∈ directRepeated b S.types S.fuel table v) ↔
      RepeatedScalar v ∨ RepeatedMessage S.types v := by
  have names := directRepeated_enumerates (b := b) S table v
  constructor
  · rintro ⟨r, hr⟩
    obtain ⟨-, h, -⟩ := names.mem_iff.mp (List.mem_map_of_mem hr)
    exact h
  · intro h
    have hn := names.mem_iff.mpr ⟨(), h, rfl⟩
    obtain ⟨r, hr, -⟩ := List.mem_map.mp hn
    exact ⟨r, hr⟩

theorem embeddedScalar_access {table embed : String} {v : Variable} {r : RepeatedField}
    (h : r ∈ embeddedScalar b table embed v) :
    RepeatedScalar v ∧ r.accessPath = [embed, lower v.name] := by
  unfold embeddedScalar at h
  split at h
  · simp at h
  next hg =>
    obtain ⟨plain, rep⟩ := not_or.mp hg
    obtain ⟨found, hs, rfl⟩ := Option.map_eq_some_iff.mp (Option.mem_toList.mp h)
    refine ⟨⟨not_not.mp plain, not_not.mp rep, ?_⟩, rfl⟩
    rw [← scalar_isSome_iff (b := b), hs]
    rfl

theorem embeddedScalar_exists {table embed : String} {v : Variable} (h : RepeatedScalar v) :
    ∃ r, r ∈ embeddedScalar b table embed v := by
  obtain ⟨plain, rep, hs⟩ := h
  obtain ⟨found, hf⟩ := Option.isSome_iff_exists.mp ((scalar_isSome_iff (b := b) v.type).mpr hs)
  simp [embeddedScalar, plain, rep, hf]

theorem mem_tracedMaps {msg : Message} (ht : msg.tableName ≠ "") {e : Traced MapField} :
    e ∈ tracedMaps b types msg ↔
      (∃ p ∈ msg.places, p.1.typeMap ≠ [] ∧ e.path = [p] ∧
        mapField b msg.tableName p.1 none = some e.entry) ∨
      ∃ p ∈ msg.places, p.1.typeMap = [] ∧ ∃ m, composedTarget types p.1 = some m ∧
        ∃ q ∈ m.visiblePlaces, q.1.typeMap ≠ [] ∧ e.path = [p, q] ∧
          mapField b msg.tableName q.1 (some (lower p.1.name)) = some e.entry := by
  obtain ⟨path, f⟩ := e
  rw [tracedMaps, if_neg ht, List.mem_flatMap]
  constructor
  · rintro ⟨p, hp, h⟩
    split at h
    next hmap =>
      obtain ⟨f', hf, he⟩ := List.mem_map.mp h
      obtain ⟨rfl, rfl⟩ := Traced.mk.inj he
      exact .inl ⟨p, hp, hmap, rfl, Option.mem_toList.mp hf⟩
    next hmap =>
      cases hm : composedTarget types p.1 with
      | none => simp [hm] at h
      | some m =>
        rw [hm, Option.elim_some] at h
        obtain ⟨q, hq, h⟩ := List.mem_flatMap.mp h
        obtain ⟨f', hf, he⟩ := List.mem_map.mp h
        obtain ⟨rfl, rfl⟩ := Traced.mk.inj he
        unfold embeddedMap at hf
        split at hf
        next hqm =>
          exact .inr ⟨p, hp, not_not.mp hmap, m, hm, q, hq, hqm, rfl, Option.mem_toList.mp hf⟩
        next => simp at hf
  · rintro (⟨p, hp, hmap, rfl, hf⟩ | ⟨p, hp, plain, m, hm, q, hq, hqm, rfl, hf⟩)
    · refine ⟨p, hp, ?_⟩
      rw [if_pos hmap]
      exact List.mem_map.mpr ⟨f, Option.mem_toList.mpr hf, rfl⟩
    · refine ⟨p, hp, ?_⟩
      rw [if_neg (not_not.mpr plain), hm, Option.elim_some]
      refine List.mem_flatMap.mpr ⟨q, hq, List.mem_map.mpr ⟨f, ?_, rfl⟩⟩
      rw [embeddedMap, if_pos hqm]
      exact Option.mem_toList.mpr hf

theorem mem_tracedRepeateds {fuel : Nat} {msg : Message} (ht : msg.tableName ≠ "")
    {e : Traced RepeatedField} :
    e ∈ tracedRepeateds b types fuel msg ↔
      (∃ p ∈ msg.places, e.path = [p] ∧
        e.entry ∈ directRepeated b types fuel msg.tableName p.1) ∨
      ∃ p ∈ msg.places, p.1.typeMap = [] ∧ ∃ m, composedTarget types p.1 = some m ∧
        ∃ q ∈ m.visiblePlaces, e.path = [p, q] ∧
          e.entry ∈ embeddedScalar b msg.tableName (lower p.1.name) q.1 := by
  obtain ⟨path, r⟩ := e
  rw [tracedRepeateds, if_neg ht, List.mem_append, List.mem_flatMap, List.mem_flatMap]
  constructor
  · rintro (⟨p, hp, h⟩ | ⟨p, hp, h⟩)
    · obtain ⟨r', hr, he⟩ := List.mem_map.mp h
      obtain ⟨rfl, rfl⟩ := Traced.mk.inj he
      exact .inl ⟨p, hp, rfl, hr⟩
    · split at h
      next => simp at h
      next hmap =>
        cases hm : composedTarget types p.1 with
        | none => simp [hm] at h
        | some m =>
          rw [hm, Option.elim_some] at h
          obtain ⟨q, hq, h⟩ := List.mem_flatMap.mp h
          obtain ⟨r', hr, he⟩ := List.mem_map.mp h
          obtain ⟨rfl, rfl⟩ := Traced.mk.inj he
          exact .inr ⟨p, hp, not_not.mp hmap, m, hm, q, hq, rfl, hr⟩
  · rintro (⟨p, hp, rfl, hr⟩ | ⟨p, hp, plain, m, hm, q, hq, rfl, hr⟩)
    · exact .inl ⟨p, hp, List.mem_map.mpr ⟨r, hr, rfl⟩⟩
    · refine .inr ⟨p, hp, ?_⟩
      rw [if_neg (not_not.mpr plain), hm, Option.elim_some]
      exact List.mem_flatMap.mpr ⟨q, hq, List.mem_map.mpr ⟨r, hr, rfl⟩⟩

variable {S : Schema} {msg : Message}

theorem columns_reach_iff (hm : msg ∈ S.messages) :
    (∀ e ∈ emitted b S.types S.fuel msg, ∀ c ∈ e.columns,
        resolve S.types msg c.accessPath = some e.path) ↔
      ∀ path p, Chain S.types msg.places (path ++ [p]) →
        (HasColumn S.types p.1 ∨ (embedTarget S.types p.1).isSome ∨
          path = [] ∧ Unresolved S.types p.1) → ClearPath S.types msg (path ++ [p]) := by
  constructor
  · intro h path p hc stored
    obtain ⟨e, he, hpath, c, hce⟩ := emitted_exists (b := b) S hm hc stored
    have reach := h e he c hce
    rw [(emitted_column he hce).1, hpath] at reach
    exact (resolve_accessors (fun _ h => h) hc).mp reach
  · intro h e he c hce
    obtain ⟨access, hc, above, p, hpath, stored⟩ := emitted_column he hce
    rw [access]
    refine (resolve_accessors (fun _ h => h) hc).mpr ?_
    rw [hpath] at hc ⊢
    exact h above p hc stored

theorem maps_reach_iff (ht : msg.tableName ≠ "") :
    (∀ e ∈ tracedMaps b S.types msg, resolve S.types msg e.entry.accessPath = some e.path) ↔
      (∀ p ∈ msg.places, ScalarMap p.1 → Alone msg p.1) ∧
      ∀ p ∈ msg.places, p.1.typeMap = [] → ∀ m, composedTarget S.types p.1 = some m →
        ∀ q ∈ m.visiblePlaces, ScalarMap q.1 →
          Alone msg p.1 ∧ .REPETEABLE ∉ p.1.modifiers ∧ Alone m q.1 := by
  have found : ∀ (v : Variable) (embed : Option String), ScalarMap v →
      ∃ f, mapField b msg.tableName v embed = some f := fun v embed h =>
    Option.isSome_iff_exists.mp ((mapField_isSome_iff msg.tableName v embed).mpr h)
  have scalars : ∀ {v : Variable} {embed : Option String} {f : MapField},
      mapField b msg.tableName v embed = some f → ScalarMap v := fun {v embed f} h =>
    (mapField_isSome_iff (b := b) msg.tableName v embed).mp (by rw [h]; rfl)
  constructor
  · intro h
    constructor
    · intro p hp hmap
      obtain ⟨f, hf⟩ := found p.1 none hmap
      have reach := h ⟨[p], f⟩ ((mem_tracedMaps ht).mpr
        (.inl ⟨p, hp, typeMap_ne_nil hmap, rfl, hf⟩))
      simp only [mapField_access hf] at reach
      exact (resolve_single hp).mp reach
    · intro p hp plain m hm q hq hmap
      obtain ⟨f, hf⟩ := found q.1 (some (lower p.1.name)) hmap
      have reach := h ⟨[p, q], f⟩ ((mem_tracedMaps ht).mpr
        (.inr ⟨p, hp, plain, m, hm, q, hq, typeMap_ne_nil hmap, rfl, hf⟩))
      simp only [mapField_access hf] at reach
      exact (resolve_pair hp hq plain hm).mp reach
  · rintro ⟨own, inner⟩ e he
    rcases (mem_tracedMaps ht).mp he with
      ⟨p, hp, -, hpath, hf⟩ | ⟨p, hp, plain, m, hm, q, hq, -, hpath, hf⟩
    · rw [hpath, mapField_access hf]
      exact (resolve_single hp).mpr (own p hp (scalars hf))
    · rw [hpath, mapField_access hf]
      exact (resolve_pair hp hq plain hm).mpr (inner p hp plain m hm q hq (scalars hf))

theorem repeateds_reach_iff (ht : msg.tableName ≠ "") :
    (∀ e ∈ tracedRepeateds b S.types S.fuel msg,
        resolve S.types msg e.entry.accessPath = some e.path) ↔
      (∀ p ∈ msg.places, RepeatedScalar p.1 ∨ RepeatedMessage S.types p.1 → Alone msg p.1) ∧
      ∀ p ∈ msg.places, p.1.typeMap = [] → ∀ m, composedTarget S.types p.1 = some m →
        ∀ q ∈ m.visiblePlaces, RepeatedScalar q.1 →
          Alone msg p.1 ∧ .REPETEABLE ∉ p.1.modifiers ∧ Alone m q.1 := by
  constructor
  · intro h
    constructor
    · intro p hp rep
      obtain ⟨r, hr⟩ := (directRepeated_exists (b := b) S msg.tableName p.1).mpr rep
      have reach := h ⟨[p], r⟩ ((mem_tracedRepeateds ht).mpr (.inl ⟨p, hp, rfl, hr⟩))
      simp only [directRepeated_access hr] at reach
      exact (resolve_single hp).mp reach
    · intro p hp plain m hm q hq rep
      obtain ⟨r, hr⟩ := embeddedScalar_exists (b := b) rep
      have reach := h ⟨[p, q], r⟩ ((mem_tracedRepeateds ht).mpr
        (.inr ⟨p, hp, plain, m, hm, q, hq, rfl, hr⟩))
      simp only [(embeddedScalar_access hr).2] at reach
      exact (resolve_pair hp hq plain hm).mp reach
  · rintro ⟨own, inner⟩ e he
    rcases (mem_tracedRepeateds ht).mp he with
      ⟨p, hp, hpath, hr⟩ | ⟨p, hp, plain, m, hm, q, hq, hpath, hr⟩
    · rw [hpath, directRepeated_access hr]
      exact (resolve_single hp).mpr
        (own p hp ((directRepeated_exists S msg.tableName p.1).mp ⟨_, hr⟩))
    · obtain ⟨rep, access⟩ := embeddedScalar_access hr
      rw [hpath, access]
      exact (resolve_pair hp hq plain hm).mpr (inner p hp plain m hm q hq rep)

theorem length_resolve_single {m : Message} {accessor : String} {path : List Place}
    (h : resolve types m [accessor] = some path) : path.length = 1 := by
  rw [resolve] at h
  split at h
  next one => exact Option.some.inj h ▸ one
  next => simp at h

/-- The columns of one repetition of `m`. -/
theorem elements_reach_iff {m : Message} (hm : m ∈ S.messages) (owner : String) :
    (∀ e ∈ emittedIn b S.types S.fuel owner m [] false, ∀ c ∈ e.columns,
        resolve S.types m c.elementPath = some e.path) ↔
      ∀ path q, Chain S.types m.visiblePlaces (path ++ [q]) → HasColumn S.types q.1 →
        path = [] ∧ Alone m q.1 := by
  have split : ∀ {path : List Place} {q : Place} {c : Column},
      ColumnAt S.types m.visiblePlaces [] false (path ++ [q]) c → c.elementPath = [lower q.1.name] := by
    intro path q c h
    obtain ⟨above, p, hpath, access⟩ := h.element rfl
    obtain ⟨-, hq⟩ := List.append_inj' hpath rfl
    cases List.singleton_inj.mp hq
    exact access
  constructor
  · intro h path q hc hcol
    obtain ⟨e, he, hpath, c, hce⟩ : ∃ e ∈ emittedIn b S.types S.fuel owner m [] false,
        e.path = path ++ [q] ∧ ∃ c, c ∈ e.columns :=
      emittedIn_exists S hm (S.rank_lt_fuel hm) hc (.inl hcol)
    have reach := h e he c hce
    have found := emittedIn_columnAt (by simp) he hce
    rw [hpath] at reach found
    rw [split found] at reach
    have len := length_resolve_single reach
    obtain rfl : path = [] := List.length_eq_zero_iff.mp (by simpa using len)
    have hq : q ∈ m.visiblePlaces := (chain_cons hc).1
    exact ⟨rfl, (resolve_single (mem_places_of_visible hq)).mp reach⟩
  · intro h e he c hce
    have found := emittedIn_columnAt (by simp) he hce
    obtain ⟨above, q, hpath, stored⟩ := found.stored
    have hc := found.chain
    rw [hpath] at found hc
    have hcol : HasColumn S.types q.1 := stored.resolve_right fun h => by simp at h
    obtain ⟨rfl, alone⟩ := h above q hc hcol
    have hq : q ∈ m.visiblePlaces := (chain_cons hc).1
    rw [split found, hpath]
    exact (resolve_single (mem_places_of_visible hq)).mpr alone

theorem pathsReach_iff (hm : msg ∈ S.messages) (ht : msg.tableName ≠ "") :
    PathsReach b S msg ↔ AccessClear S.types msg := by
  have elements : ∀ p ∈ msg.places, ∀ m, composedTarget S.types p.1 = some m →
      ((∀ e ∈ emittedIn b S.types S.fuel p.1.name m [] false, ∀ c ∈ e.columns,
          resolve S.types m c.elementPath = some e.path) ↔
        ∀ path q, Chain S.types m.visiblePlaces (path ++ [q]) → HasColumn S.types q.1 →
          path = [] ∧ Alone m q.1) :=
    fun p _ m h => elements_reach_iff (composedTarget_mem h) p.1.name
  constructor
  · intro h
    have maps := (maps_reach_iff ht).mp h.maps
    have repeateds := (repeateds_reach_iff ht).mp h.repeateds
    refine ⟨(columns_reach_iff hm).mp h.columns, ?_, ?_, ?_⟩
    · rintro p hp (hmap | hrep)
      · exact maps.1 p hp hmap
      · exact repeateds.1 p hp hrep
    · rintro p hp plain m hm' q hq (hmap | hrep)
      · exact (maps.2 p hp plain m hm' q hq hmap).2
      · exact (repeateds.2 p hp plain m hm' q hq hrep).2
    · exact fun p hp plain rep m hm' => (elements p hp m hm').mp (h.elements p hp plain rep m hm')
  · intro h
    -- a singular embed has a presence column, so its name is clear already
    have embed : ∀ p ∈ msg.places, p.1.typeMap = [] → ∀ m, composedTarget S.types p.1 = some m →
        .REPETEABLE ∉ p.1.modifiers → Alone msg p.1 := by
      intro p hp plain m hm' single
      have target := embedTarget_of_composed plain hm'
      rw [if_neg single] at target
      have clear := h.columns [] p (.last hp) (.inr (.inl (by rw [target]; rfl)))
      exact clear.1
    refine ⟨(columns_reach_iff hm).mpr h.columns, (maps_reach_iff ht).mpr ⟨?_, ?_⟩,
      (repeateds_reach_iff ht).mpr ⟨?_, ?_⟩, ?_⟩
    · exact fun p hp hmap => h.children p hp (.inl hmap)
    · intro p hp plain m hm' q hq hmap
      obtain ⟨single, alone⟩ := h.embedded p hp plain m hm' q hq (.inl hmap)
      exact ⟨embed p hp plain m hm' single, single, alone⟩
    · exact fun p hp hrep => h.children p hp (.inr hrep)
    · intro p hp plain m hm' q hq hrep
      obtain ⟨single, alone⟩ := h.embedded p hp plain m hm' q hq (.inr hrep)
      exact ⟨embed p hp plain m hm' single, single, alone⟩
    · exact fun p hp plain rep m hm' => (elements p hp m hm').mpr (h.elements p hp plain rep m hm')

theorem allPathsReach_iff_accessClear (b : Backend) (S : Schema) :
    AllPathsReach b S ↔ AllAccessClear S :=
  forall_congr' fun _ => forall_congr' fun hm => forall_congr' fun ht => pathsReach_iff hm ht

/-- A message that refers to no other is clear where no two fields share a name. -/
theorem accessClear_of_flat {m : Message}
    (flat : ∀ p ∈ m.places, embedTarget types p.1 = none ∧ composedTarget types p.1 = none)
    (alone : ∀ p ∈ m.places, Alone m p.1) : AccessClear types m := by
  constructor
  · intro path p chain _
    cases path with
    | nil =>
      have hp := (chain_cons chain).1
      refine ⟨alone p hp, fun m' embed => ?_⟩
      rw [(flat p hp).1] at embed
      cases embed
    | cons q path =>
      obtain ⟨hq, none_ | ⟨m', embed, _⟩⟩ := chain_cons chain
      · simp at none_
      · rw [(flat q hq).1] at embed
        cases embed
  · exact fun p hp _ => alone p hp
  · intro p hp _ m' composed
    rw [(flat p hp).2] at composed
    cases composed
  · intro p hp _ _ m' composed
    rw [(flat p hp).2] at composed
    cases composed

def taggedItem : Message :=
  { name := "item", user := [{ name := "size", type := .INT32 },
    { name := "tags", type := .STRING, typeMap := [.STRING, .STRING] }] }

/-- A repeated message with a map inside. -/
def itemShop : Message :=
  { name := "shop", tableName := "shops"
    user := [{ name := "items", type := .ID "item", modifiers := [.REPETEABLE] }] }

def itemShopSchema : Schema where
  messages := [taggedItem, itemShop]
  names_nodup := by decide
  names_allowed := by decide +kernel
  tables_identifier := by decide +kernel
  rank m := if m.name = "item" then 0 else 1
  rank_lt := by decide +kernel
  declared_before := by decide +kernel

/-- The map `tags` gets a child table of the shop, to be read through the repeated field `items`. -/
theorem not_allPathsReach_itemShop : ¬ AllPathsReach sqlite itemShopSchema := by
  intro h
  have maps := (h itemShop (by simp [itemShopSchema]) (by decide)).maps
  exact absurd maps (by decide +kernel)

end Harpia
