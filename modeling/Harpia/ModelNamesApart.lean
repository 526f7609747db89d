import Harpia.ModelChildTables

namespace Harpia

open Text

/-- The names `model.py` derives for one table message do not collide. -/
structure TableCollisionFree (b : Backend) (S : Schema) (msg : Message) : Prop where
  columns : ((analyze b S.types S.fuel msg).1.map Column.name).Nodup
  childTables : (childTableNames b S.types S.fuel msg).Nodup
  mainTables : ∀ child ∈ childTableNames b S.types S.fuel msg, ∀ m ∈ S.messages,
    child ≠ m.tableName
  maps : ∀ f ∈ mapFields b S.types msg, f.columnNames.Nodup
  repeateds : ∀ f ∈ repeatedFields b S.types S.fuel msg, f.columnNames.Nodup

def CollisionFree (b : Backend) (S : Schema) : Prop :=
  ∀ msg ∈ S.messages, msg.tableName ≠ "" → TableCollisionFree b S msg

/-- Two fields below the table message never have the same words in their paths: not for their
columns, nor for their child tables, and no table is called like a child table. The fields of a
repeated element, which drop their paths, have names of their own. -/
structure TableNamesApart (S : Schema) (msg : Message) : Prop where
  columns : ∀ presence presence' position position' ws,
    MainColumn S.types msg presence position ws →
      MainColumn S.types msg presence' position' ws → presence = presence' ∧ position = position'
  childTables : ∀ key key' ws, ChildField S.types msg key ws → ChildField S.types msg key' ws →
    key = key'
  mainTables : ∀ key ws, ChildField S.types msg key ws → ∀ m ∈ S.messages,
    words m.tableName ≠ words msg.tableName ++ [] :: ws
  elements : ∀ v ∈ msg.vars, v.typeMap = [] → .REPETEABLE ∈ v.modifiers → ∀ m,
    composedTarget S.types v = some m →
      (∀ position position' name, ElementColumn S.types m position name →
        ElementColumn S.types m position' name → position = position') ∧
      ∀ position name, ElementColumn S.types m position name → name ≠ "owner" ∧ name ≠ "ordinal"

def NamesApart (S : Schema) : Prop :=
  ∀ msg ∈ S.messages, msg.tableName ≠ "" → TableNamesApart S msg

variable {b : Backend} {S : Schema} {msg : Message}

theorem columnOf_path_ne_nil {types : Types} {v : Variable} {p : Bool} {is : List Nat}
    {path : List Variable} (h : ColumnOf types v p is path) : path ≠ [] := by
  cases h <;> simp

theorem exists_words_pathWords {path : List Variable} (h : path ≠ []) :
    ∃ name, words name = pathWords path := by
  induction path with
  | nil => exact absurd rfl h
  | cons v path ih =>
    by_cases hp : path = []
    · exact ⟨v.name, by simp [hp, pathWords]⟩
    · obtain ⟨name, hn⟩ := ih hp
      exact ⟨v.name ++ "_" ++ name, by simp [words_join, hn, pathWords]⟩

theorem exists_words_mainColumn {types : Types} {p : Bool} {is : List Nat}
    {ws : List (List Char)} (h : MainColumn types msg p is ws) : ∃ name, words name = ws := by
  cases h with
  | field hv hc =>
    obtain ⟨name, hn⟩ := exists_words_pathWords (columnOf_path_ne_nil hc)
    cases p with
    | false => exact ⟨name, hn⟩
    | true => exact ⟨"HARPIA_HAS" ++ "_" ++ name, by rw [words_join, hn]; rfl⟩
  | unresolved hv hu => exact ⟨_, rfl⟩

theorem exists_words_childField {types : Types} {key : Nat × Option Nat}
    {ws : List (List Char)} (h : ChildField types msg key ws) :
    ∃ name, words name = words msg.tableName ++ [] :: ws := by
  cases h with
  | map => exact ⟨_, words_childTable _ _⟩
  | repeated => exact ⟨_, words_childTable _ _⟩
  | embedded => exact ⟨_, words_embeddedTable _ _ _⟩

theorem columns_nodup_iff (hm : msg ∈ S.messages) :
    ((analyze b S.types S.fuel msg).1.map Column.name).Nodup ↔
      ∀ presence presence' position position' ws, MainColumn S.types msg presence position ws →
        MainColumn S.types msg presence' position' ws →
          presence = presence' ∧ position = position' := by
  rw [(analyze_enumerates S hm).nodup_iff]
  constructor
  · intro h p p' is is' ws h₁ h₂
    obtain ⟨name, rfl⟩ := exists_words_mainColumn h₁
    exact Prod.mk.inj (h (p, is) (p', is') name h₁ h₂)
  · rintro h ⟨p, is⟩ ⟨p', is'⟩ name h₁ h₂
    obtain ⟨rfl, rfl⟩ := h p p' is is' (words name) h₁ h₂
    rfl

theorem childTables_nodup_iff (ht : msg.tableName ≠ "") :
    (childTableNames b S.types S.fuel msg).Nodup ↔ ∀ key key' ws,
      ChildField S.types msg key ws → ChildField S.types msg key' ws → key = key' := by
  rw [(childTableNames_enumerates S ht).nodup_iff]
  constructor
  · intro h key key' ws h₁ h₂
    obtain ⟨name, hn⟩ := exists_words_childField h₁
    exact h key key' name ⟨ws, h₁, hn⟩ ⟨ws, h₂, hn⟩
  · rintro h key key' name ⟨ws, h₁, hn⟩ ⟨ws', h₂, hn'⟩
    have he : ws = ws' := by simpa using hn.symm.trans hn'
    exact h key key' ws h₁ (he ▸ h₂)

theorem mainTables_apart_iff (ht : msg.tableName ≠ "") :
    (∀ child ∈ childTableNames b S.types S.fuel msg, ∀ m ∈ S.messages, child ≠ m.tableName) ↔
      ∀ key ws, ChildField S.types msg key ws → ∀ m ∈ S.messages,
        words m.tableName ≠ words msg.tableName ++ [] :: ws := by
  constructor
  · intro h key ws hc m hm he
    exact h _ ((childTableNames_enumerates S ht).mem_iff.mpr ⟨key, ws, hc, he⟩) m hm rfl
  · rintro h child hc m hm rfl
    obtain ⟨key, ws, hf, he⟩ := (childTableNames_enumerates S ht).mem_iff.mp hc
    exact h key ws hf m hm he

theorem directRepeated_of_composed {types : Types} {fuel : Nat} {table : String} {v : Variable}
    {m : Message} (plain : v.typeMap = []) (rep : .REPETEABLE ∈ v.modifiers)
    (hm : composedTarget types v = some m) :
    directRepeated b types fuel table v =
      if (flatten b types fuel v.name m [] false).1 ≠ [] then
        [.composed (table ++ "__" ++ v.name) (lower v.name)
          (flatten b types fuel v.name m [] false).1 v.renamedFrom] else [] := by
  unfold composedTarget at hm
  split at hm
  next target ht =>
    split at hm
    next hl =>
      cases Option.some.inj hm
      simp [directRepeated, plain, rep, ht, hl]
    next => simp at hm
  next => simp at hm

theorem columnNames_of_directRepeated {types : Types} {fuel : Nat} {table : String} {v : Variable}
    {r : RepeatedField} (h : r ∈ directRepeated b types fuel table v) :
    r.columnNames = ["owner", "ordinal", "value"] ∨
      v.typeMap = [] ∧ .REPETEABLE ∈ v.modifiers ∧ ∃ m, composedTarget types v = some m ∧
        r.columnNames = "owner" :: "ordinal" ::
          (flatten b types fuel v.name m [] false).1.map Column.name := by
  by_cases rep : v.typeMap = [] ∧ .REPETEABLE ∈ v.modifiers
  · cases hm : composedTarget types v with
    | some m =>
      rw [directRepeated_of_composed rep.1 rep.2 hm] at h
      split at h
      · cases List.mem_singleton.mp h
        exact .inr ⟨rep.1, rep.2, m, rfl, rfl⟩
      · simp at h
    | none =>
      simp only [directRepeated, rep, ne_eq, not_true_eq_false, or_self, ↓reduceIte] at h
      simp only [composedTarget] at hm
      split at h
      · split at h <;> simp_all [RepeatedField.columnNames]
      · split at h <;> simp_all [RepeatedField.columnNames]
  · simp [directRepeated, not_and_or.mp rep] at h

theorem columnNames_of_embeddedRepeated {types : Types} {table : String} {v : Variable}
    {r : RepeatedField} (h : r ∈ embeddedRepeated b types table v) :
    r.columnNames = ["owner", "ordinal", "value"] := by
  unfold embeddedRepeated at h
  split at h
  · simp at h
  · split at h
    · obtain ⟨cv, -, hr⟩ := List.mem_flatMap.mp h
      split at hr
      · simp at hr
      · split at hr
        · cases List.mem_singleton.mp hr
          rfl
        · simp at hr
    · simp at h

/-- The repeated fields' child tables are fine exactly if the composed ones are. -/
theorem repeateds_nodup_iff (ht : msg.tableName ≠ "") :
    (∀ f ∈ repeatedFields b S.types S.fuel msg, f.columnNames.Nodup) ↔
      ∀ v ∈ msg.vars, v.typeMap = [] → .REPETEABLE ∈ v.modifiers → ∀ m,
        composedTarget S.types v = some m →
          ("owner" :: "ordinal" ::
            (flatten b S.types S.fuel v.name m [] false).1.map Column.name).Nodup := by
  simp only [repeatedFields, ht, ↓reduceIte, List.mem_append, List.mem_flatMap]
  constructor
  · intro h v hv plain rep m hm
    by_cases stored : (flatten b S.types S.fuel v.name m [] false).1 = []
    · rw [stored]
      decide
    · refine h (.composed (msg.tableName ++ "__" ++ v.name) (lower v.name) _ v.renamedFrom)
        (.inl ⟨v, hv, ?_⟩)
      rw [directRepeated_of_composed plain rep hm, if_pos stored]
      exact List.mem_singleton.mpr rfl
  · rintro h f (⟨v, hv, hf⟩ | ⟨v, hv, hf⟩)
    · rcases columnNames_of_directRepeated hf with hn | ⟨plain, rep, m, hm, hn⟩
      · rw [hn]
        decide
      · rw [hn]
        exact h v hv plain rep m hm
    · rw [columnNames_of_embeddedRepeated hf]
      decide

theorem elements_nodup_iff {m : Message} (hm : m ∈ S.messages) (owner : String) :
    ("owner" :: "ordinal" :: (flatten b S.types S.fuel owner m [] false).1.map Column.name).Nodup ↔
      (∀ position position' name, ElementColumn S.types m position name →
        ElementColumn S.types m position' name → position = position') ∧
      ∀ position name, ElementColumn S.types m position name →
        name ≠ "owner" ∧ name ≠ "ordinal" := by
  have columns := flatten_element_enumerates (b := b) S hm (S.rank_lt_fuel hm) owner []
  rw [List.nodup_cons, List.nodup_cons, List.mem_cons, columns.mem_iff, columns.mem_iff,
    columns.nodup_iff]
  constructor
  · rintro ⟨ho, hord, hn⟩
    refine ⟨fun is is' name h₁ h₂ => congrArg Prod.snd (hn ((), is) ((), is') name h₁ h₂), ?_⟩
    rintro is name h
    refine ⟨?_, ?_⟩
    · rintro rfl
      exact ho (.inr ⟨((), is), h⟩)
    · rintro rfl
      exact hord ⟨((), is), h⟩
  · rintro ⟨hn, hne⟩
    refine ⟨?_, ?_, ?_⟩
    · rintro (h | ⟨key, h⟩)
      · simp at h
      · exact (hne _ _ h).1 rfl
    · rintro ⟨key, h⟩
      exact (hne _ _ h).2 rfl
    · rintro ⟨⟨⟩, is⟩ ⟨⟨⟩, is'⟩ name h₁ h₂
      rw [hn is is' name h₁ h₂]

theorem tableCollisionFree_iff (hm : msg ∈ S.messages) (ht : msg.tableName ≠ "") :
    TableCollisionFree b S msg ↔ TableNamesApart S msg := by
  have elements := repeateds_nodup_iff (b := b) (S := S) ht
  constructor
  · rintro ⟨columns, childTables, mainTables, -, repeateds⟩
    refine ⟨(columns_nodup_iff hm).mp columns, (childTables_nodup_iff ht).mp childTables,
      (mainTables_apart_iff ht).mp mainTables, ?_⟩
    intro v hv plain rep m hc
    exact (elements_nodup_iff (composedTarget_mem hc) v.name).mp
      (elements.mp repeateds v hv plain rep m hc)
  · rintro ⟨columns, childTables, mainTables, apart⟩
    refine ⟨(columns_nodup_iff hm).mpr columns, (childTables_nodup_iff ht).mpr childTables,
      (mainTables_apart_iff ht).mpr mainTables, fun f _ => by simp [MapField.columnNames], ?_⟩
    refine elements.mpr fun v hv plain rep m hc => ?_
    exact (elements_nodup_iff (composedTarget_mem hc) v.name).mpr (apart v hv plain rep m hc)

/-- The derived names are collision free exactly if no two fields spell the same words. -/
theorem collisionFree_iff_namesApart (b : Backend) (S : Schema) :
    CollisionFree b S ↔ NamesApart S := by
  refine forall_congr' fun msg => forall_congr' fun hm => forall_congr' fun ht => ?_
  exact tableCollisionFree_iff hm ht

def embeddedPoint : Message := { name := "point", user := [{ name := "b", type := .INT32 }] }

/-- A scalar `a_b` beside an embed `a` with a field `b`. -/
def joinedNames : Message :=
  { name := "shape", tableName := "shapes"
    user := [{ name := "a_b", type := .INT32 }, { name := "a", type := .ID "point" }] }

def joinedNamesSchema : Schema where
  messages := [embeddedPoint, joinedNames]
  names_nodup := by decide
  names_allowed := by decide +kernel
  tables_identifier := by decide +kernel
  rank m := if m.name = "point" then 0 else 1
  rank_lt := by decide +kernel
  declared_before := by decide +kernel

theorem not_collisionFree_joinedNames : ¬ CollisionFree sqlite joinedNamesSchema := by
  intro h
  have columns := (h joinedNames (by simp [joinedNamesSchema]) (by decide)).columns
  exact absurd columns (by decide +kernel)

end Harpia
