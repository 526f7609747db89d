import Harpia.Migration
import Harpia.ModelNames

namespace Harpia

open Text Sqlite

/-- Flattened columns carry no constraint. -/
def Column.Plain (c : Column) : Prop := c.pk = false ∧ c.required = false ∧ c.unique = false

theorem flattenVar_plain {b : Backend} {types : Types}
    {recur : String → Message → List String → Bool → Flattened}
    (hr : ∀ owner m path p, ∀ c ∈ (recur owner m path p).1, c.Plain) {owner : String}
    {child : Message} {embedPath : List String} {prefixed : Bool} {v : Variable} :
    ∀ c ∈ (flattenVar b types recur owner child embedPath prefixed v).1, c.Plain := by
  intro c hc
  unfold flattenVar at hc
  extract_lets colName embed at hc
  split at hc
  · simp at hc
  · split at hc
    · simp at hc
    · split at hc
      · simp at hc
      · split at hc
        · split at hc
          · cases List.mem_singleton.mp hc
            exact ⟨rfl, rfl, rfl⟩
          · exact hr _ _ _ _ c hc
          · cases List.mem_singleton.mp hc
            exact ⟨rfl, rfl, rfl⟩
          · simp at hc
        · split at hc
          · simp at hc
          · cases List.mem_singleton.mp hc
            exact ⟨rfl, rfl, rfl⟩

theorem flatten_plain {b : Backend} {types : Types} {fuel : Nat} {owner : String} {m : Message}
    {path : List String} {prefixed : Bool} :
    ∀ c ∈ (flatten b types fuel owner m path prefixed).1, c.Plain := by
  induction fuel generalizing owner m path prefixed with
  | zero => simp [flatten]
  | succ fuel ih =>
    intro c hc
    simp only [flatten, List.mem_append, List.mem_flatMap, List.mem_map] at hc
    rcases hc with hc | ⟨_, ⟨v, -, rfl⟩, hc⟩
    · split at hc
      · cases List.mem_singleton.mp hc
        exact ⟨rfl, rfl, rfl⟩
      · simp at hc
    · exact flattenVar_plain (fun _ _ _ _ => ih) c hc

theorem analyzeVar_pk {b : Backend} {types : Types} {fuel : Nat} {msg : Message} {v : Variable}
    {c : Column} (hc : c ∈ (analyzeVar b types fuel msg v).1) (hp : c.pk) :
    c.name = "HARPIA_ID" ∧ v.name = "HARPIA_ID" ∧ ∃ sqlType kind, scalar b v.type = some (sqlType, kind) ∧
      c.sqlType = if v.isPhi then b.string else sqlType := by
  unfold analyzeVar at hc
  split at hc
  · simp at hc
  · split at hc
    · split at hc
      · split at hc <;> simp at hc
      · split at hc <;> simp at hc
    · split at hc
      · split at hc
        · cases List.mem_singleton.mp hc
          simp at hp
        · cases List.mem_singleton.mp hc
          simp at hp
        · have := flatten_plain c hc
          simp [this.1] at hp
        · cases List.mem_singleton.mp hc
          simp at hp
      · split at hc
        · simp at hc
        next sqlType kind hs =>
          cases List.mem_singleton.mp hc
          simp only [decide_eq_true_eq] at hp
          exact ⟨hp, hp, sqlType, kind, hs, rfl⟩

theorem harpiaId_of_name {S : Schema} {msg : Message} (hm : msg ∈ S.messages) {v : Variable}
    (hv : v ∈ msg.vars) (hn : v.name = "HARPIA_ID") : v = harpiaId := by
  simp only [Message.vars, withHidden, List.cons_append, List.mem_cons, List.mem_append,
    List.not_mem_nil, or_false] at hv
  rcases hv with rfl | hv | rfl | rfl | rfl
  · rfl
  · have := S.names_allowed msg hm v hv
    rw [hn] at this
    exact absurd this (by decide +kernel)
  all_goals simp [harpiaStatus, harpiaError, harpiaOriginator] at hn

theorem harpiaId_column (S : Schema) (msg : Message) :
    ∃ c ∈ (analyze sqlite S.types S.fuel msg).1, c.name = "HARPIA_ID" ∧ c.pk := by
  have hv : harpiaId ∈ msg.vars := List.mem_cons_self
  refine ⟨_, List.mem_flatMap.mpr ⟨_, List.mem_map_of_mem hv, List.mem_singleton.mpr rfl⟩, rfl, rfl⟩

theorem name_mem_analyze {b : Backend} {types : Types} {fuel : Nat} {msg : Message} {v : Variable}
    (hv : v ∈ msg.vars) (h : HasColumn types v) :
    v.name ∈ (analyze b types fuel msg).1.map Column.name := by
  have hn : v.name ∈ (analyzeVar b types fuel msg v).1.map Column.name := by
    rw [analyzeVar_of_column (.inl h)]
    exact List.mem_cons_self
  obtain ⟨c, hc, he⟩ := List.mem_map.mp hn
  exact List.mem_map.mpr ⟨c, List.mem_flatMap.mpr ⟨_, List.mem_map_of_mem hv, hc⟩, he⟩

theorem hidden_columns (S : Schema) (msg : Message) :
    ∀ n ∈ hiddenNames, n ∈ (analyze sqlite S.types S.fuel msg).1.map Column.name := by
  have column : ∀ v ∈ [harpiaId, harpiaStatus, harpiaError, harpiaOriginator],
      v.name ∈ (analyze sqlite S.types S.fuel msg).1.map Column.name := by
    intro v hv
    simp only [List.mem_cons, List.not_mem_nil, or_false] at hv
    refine name_mem_analyze ?_ ?_
    · rcases hv with rfl | rfl | rfl | rfl <;> simp [Message.vars, withHidden]
    · rcases hv with rfl | rfl | rfl | rfl <;> exact ⟨rfl, by decide, .inl rfl⟩
  intro n hn
  simp only [hiddenNames, List.mem_cons, List.not_mem_nil, or_false] at hn
  rcases hn with rfl | rfl | rfl | rfl
  · exact column harpiaId (by simp)
  · exact column harpiaStatus (by simp)
  · exact column harpiaError (by simp)
  · exact column harpiaOriginator (by simp)

theorem analyze_pk {S : Schema} {msg : Message} (hm : msg ∈ S.messages) :
    ∀ c ∈ (analyze sqlite S.types S.fuel msg).1, c.pk →
      c.name = "HARPIA_ID" ∧ c.sqlType = .INTEGER := by
  intro c hc hp
  obtain ⟨_, hmap, hc⟩ := List.mem_flatMap.mp hc
  obtain ⟨v, hv, rfl⟩ := List.mem_map.mp hmap
  obtain ⟨hn, hvn, sqlType, kind, hs, ht⟩ := analyzeVar_pk hc hp
  obtain rfl := harpiaId_of_name hm hv hvn
  cases Option.some.inj hs
  exact ⟨hn, ht⟩

def childrenOf (S : Schema) (msg : Message) : List Child :=
  (mapFields sqlite S.types msg).map MapField.child ++
    (repeatedFields sqlite S.types S.fuel msg).map RepeatedField.child

theorem mapFieldsOf_named {b : Backend} {types : Types} {table : String} {v : Variable}
    {f : MapField} (h : f ∈ mapFieldsOf b types table v) :
    ∃ suffix, f.childTable = table ++ "__" ++ suffix := by
  have named : ∀ {w : Variable} {e : Option String}, f ∈ (mapField b table w e).toList →
      ∃ suffix, f.childTable = table ++ "__" ++ suffix := by
    intro w e hf
    have hf := Option.mem_toList.mp hf
    simp only [mapField] at hf
    split at hf
    · cases Option.some.inj hf
      exact ⟨_, rfl⟩
    · simp at hf
  unfold mapFieldsOf at h
  split at h
  · exact named h
  · split at h
    · obtain ⟨w, -, hf⟩ := List.mem_flatMap.mp h
      split at hf
      · exact named hf
      · simp at hf
    · simp at h

theorem directRepeated_child {b : Backend} {types : Types} {fuel : Nat} {table : String}
    {v : Variable} {f : RepeatedField} (h : f ∈ directRepeated b types fuel table v) :
    (∃ suffix, f.childTable = table ++ "__" ++ suffix) ∧
      ∀ columns, f.child.shape = .composed columns → ∀ c ∈ columns, c.Plain := by
  unfold directRepeated at h
  split at h
  · simp at h
  · extract_lets child at h
    split at h
    · split at h
      · cases List.mem_singleton.mp h
        exact ⟨⟨_, rfl⟩, by simp [RepeatedField.child]⟩
      · extract_lets cols at h
        split at h
        · cases List.mem_singleton.mp h
          refine ⟨⟨_, rfl⟩, fun columns hc => ?_⟩
          cases hc
          exact flatten_plain
        · simp at h
      · simp at h
    · split at h
      · cases List.mem_singleton.mp h
        exact ⟨⟨_, rfl⟩, by simp [RepeatedField.child]⟩
      · simp at h

theorem embeddedRepeated_child {b : Backend} {types : Types} {table : String} {v : Variable}
    {f : RepeatedField} (h : f ∈ embeddedRepeated b types table v) :
    (∃ suffix, f.childTable = table ++ "__" ++ suffix) ∧
      ∀ columns, f.child.shape ≠ .composed columns := by
  unfold embeddedRepeated at h
  split at h
  · simp at h
  · split at h
    · obtain ⟨w, -, hf⟩ := List.mem_flatMap.mp h
      split at hf
      · simp at hf
      · split at hf
        · cases List.mem_singleton.mp hf
          refine ⟨⟨lower v.name ++ "_" ++ w.name, ?_⟩, by simp [RepeatedField.child]⟩
          simp [RepeatedField.childTable, String.append_assoc]
        · simp at hf
    · simp at h

theorem RepeatedField.child_table (f : RepeatedField) : f.child.table = f.childTable := by
  cases f with
  | scalar => simp only [RepeatedField.child]; split <;> rfl
  | composed => rfl

/-- The version a schema declares for one of its table messages. -/
def declaredOf (S : Schema) (msg : Message) (hm : msg ∈ S.messages) (ht : msg.tableName ≠ "")
    (version : String) : Declared where
  table := msg.tableName
  named := S.tables_identifier msg hm ht
  version := version
  columns := (analyze sqlite S.types S.fuel msg).1
  children := childrenOf S msg
  hidden_declared := hidden_columns S msg
  keyed := by
    obtain ⟨c, hc, -, hp⟩ := harpiaId_column S msg
    exact ⟨c, hc, hp⟩
  pk_only := analyze_pk hm
  elements_plain := by
    intro child hc columns hs
    rcases List.mem_append.mp hc with hc | hc
    · obtain ⟨f, -, rfl⟩ := List.mem_map.mp hc
      simp [MapField.child] at hs
    · obtain ⟨f, hf, rfl⟩ := List.mem_map.mp hc
      unfold repeatedFields at hf
      split at hf
      · simp at hf
      · rcases List.mem_append.mp hf with hf | hf
        · obtain ⟨v, -, hf⟩ := List.mem_flatMap.mp hf
          exact (directRepeated_child hf).2 columns hs
        · obtain ⟨v, -, hf⟩ := List.mem_flatMap.mp hf
          exact absurd hs ((embeddedRepeated_child hf).2 columns)
  child_named := by
    intro child hc
    rcases List.mem_append.mp hc with hc | hc
    · obtain ⟨f, hf, rfl⟩ := List.mem_map.mp hc
      unfold mapFields at hf
      split at hf
      · simp at hf
      · obtain ⟨v, -, hf⟩ := List.mem_flatMap.mp hf
        exact mapFieldsOf_named hf
    · obtain ⟨f, hf, rfl⟩ := List.mem_map.mp hc
      rw [f.child_table]
      unfold repeatedFields at hf
      split at hf
      · simp at hf
      · rcases List.mem_append.mp hf with hf | hf
        · obtain ⟨v, -, hf⟩ := List.mem_flatMap.mp hf
          exact (directRepeated_child hf).1
        · obtain ⟨v, -, hf⟩ := List.mem_flatMap.mp hf
          exact (embeddedRepeated_child hf).1

/-- No name that starts like a table is that of the version table. -/
theorem fold_ne_versionTable (d : Declared) (suffix : String) :
    fold (d.table ++ suffix) ≠ fold versionTable := by
  intro he
  have hid := d.named
  unfold isIdentifier at hid
  split at hid
  · simp at hid
  next c cs ht =>
    have hl := congrArg String.toList he
    simp only [fold, lower, String.toList_append, ht, String.toList_ofList, List.cons_append,
      List.map_cons] at hl
    have hc : c.toLower = '_' := (List.cons.inj (hl.trans rfl)).1
    rw [Bool.and_eq_true] at hid
    exact toLower_ne_underscore hid.1 hc

theorem fold_table_ne_version (d : Declared) : fold d.table ≠ fold versionTable := by
  simpa using fold_ne_versionTable d ""

theorem fold_child_ne {d : Declared} (suffix : String) :
    fold (d.table ++ "__" ++ suffix) ≠ fold d.table := by
  have hl : "__".length = 2 := rfl
  rw [String.append_assoc]
  exact fold_append_ne _ _ (by rw [String.length_append]; omega)

theorem childTable_ne {d : Declared} {c : Child} (hc : c ∈ d.children) :
    fold c.table ≠ fold d.table ∧ fold c.table ≠ fold versionTable ∧
      startsWith c.table (d.table ++ "__") := by
  obtain ⟨suffix, hs⟩ := d.child_named c hc
  rw [hs]
  refine ⟨fold_child_ne suffix, ?_, startsWith_iff.mpr ⟨suffix, rfl⟩⟩
  rw [String.append_assoc]
  exact fold_ne_versionTable d _

theorem unreserved_version : reserved versionTable = false := by decide +kernel

/-- A child table's name has two underscores in a row, so it does not end within `sqlite_`. -/
theorem unreserved_append {d : Declared} {c : Child} (hc : c ∈ d.children)
    (h : reserved c.table = false) (suffix : String) : reserved (c.table ++ suffix) = false := by
  rw [Bool.eq_false_iff]
  intro kept
  have starts : "sqlite_".toList <+: (fold c.table).toList ++ (fold suffix).toList := by
    have split : (fold (c.table ++ suffix)).toList =
        (fold c.table).toList ++ (fold suffix).toList := by
      simp only [fold, lower, String.toList_append, String.toList_ofList, List.map_append]
    rw [← split]
    exact List.isPrefixOf_iff_prefix.mp kept
  rcases List.prefix_or_prefix_of_prefix starts (List.prefix_append _ _) with whole | within
  · rw [reserved, startsWith, List.isPrefixOf_iff_prefix.mpr whole] at h
    simp at h
  · obtain ⟨rest, named⟩ := d.child_named c hc
    have underscores : "__".toList <:+: (fold c.table).toList := by
      have same : "__".toList.map Char.toLower = "__".toList := by decide +kernel
      refine ⟨(fold d.table).toList, (fold rest).toList, ?_⟩
      rw [named]
      simp only [fold, lower, String.toList_append, String.toList_ofList, List.map_append, same]
    have far : ¬ "__".toList <:+: "sqlite_".toList := by decide +kernel
    exact far (underscores.trans within.isInfix)

end Harpia
