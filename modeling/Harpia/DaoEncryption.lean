import Harpia.DaoRuntime
import Harpia.ModelAccess

namespace Harpia

open Text Sqlite Proto

section Sealed

/-- Text that `encrypt_field` made, and not the text it was made from. -/
def SealedBy (providers : Set KeyProvider) (v : Value) : Prop :=
  ∃ p ∈ providers, ∃ (dek : Bytes) (text : String) (stored : List Char),
    encryptField .python p dek text = some stored ∧ v = .text (String.ofList stored) ∧
      v ≠ .text text

/-- What a `phi` value is stored as; `NULL` stands for a field that is not set. -/
def Protected (providers : Set KeyProvider) (v : Value) : Prop := v = .null ∨ SealedBy providers v

theorem length_le_utf8 (text : String) : text.toList.length ≤ (String.toUTF8 text).size := by
  have same : text.toList.utf8Encode = String.toUTF8 text := String.utf8Encode_toList
  rw [← same]
  generalize text.toList = cs
  induction cs with
  | nil => simp
  | cons c cs ih =>
    have one := c.utf8Size_pos
    rw [List.utf8Encode_cons, List.utf8Encode_singleton]
    simp
    omega

/-- The sealed text is longer than the plain one. -/
theorem encryptField_ne {p : KeyProvider} {dek : Bytes} {text : String} {stored : List Char}
    (h : encryptField .python p dek text = some stored) :
    Value.text (String.ofList stored) ≠ .text text := by
  intro he
  have same : stored = text.toList := by
    rw [← Value.text.inj he, String.toList_ofList]
  obtain ⟨w, -, rest⟩ := Option.bind_eq_some_iff.mp h
  obtain ⟨bytes, hf, hs⟩ := Option.bind_eq_some_iff.mp rest
  have long : (String.toUTF8 text).size ≤ bytes.length := by
    unfold frame at hf
    split at hf
    · simp at hf
    · cases Option.some.inj hf
      simp [Plain.encode]
      omega
  have length := congrArg List.length (Option.some.inj hs)
  have short := length_le_utf8 text
  rw [same, List.length_append, Bytes.length_toHex] at length
  have marker : encMarker.length = 7 := by decide
  omega

/-- What is protected is `NULL` or starts with the marker. -/
theorem Protected.marked {providers : Set KeyProvider} {v : Value} (h : Protected providers v) :
    v = .null ∨ ∃ text, v = .text text ∧ encMarker <+: text.toList := by
  rcases h with null | ⟨p, -, dek, plain, stored, he, same, -⟩
  · exact .inl null
  · obtain ⟨w, -, rest⟩ := Option.bind_eq_some_iff.mp he
    obtain ⟨bytes, -, hs⟩ := Option.bind_eq_some_iff.mp rest
    refine .inr ⟨String.ofList stored, same, ?_⟩
    rw [String.toList_ofList, ← Option.some.inj hs]
    exact List.prefix_append _ _

end Sealed

section Source

/-- A `phi` field of a message that is a singular scalar, and alone with its name. -/
structure OwnPhi (m : Message) (v : Variable) : Prop where
  mem : v ∈ m.vars
  phi : v.isPhi
  single : v.singular
  scalar : isScalarToken v.type
  alone : Alone m v

variable {types : Types} {m : Message} {v : Variable}

theorem OwnPhi.unique (h : OwnPhi m v) {w : Variable} (hw : w ∈ m.vars)
    (same : lower w.name = lower v.name) : w = v := by
  rw [← map_fst_places] at hw
  obtain ⟨p, hp, rfl⟩ := List.mem_map.mp (map_fst_places m ▸ h.mem)
  obtain ⟨q, hq, rfl⟩ := List.mem_map.mp hw
  have mem : q ∈ m.accessed (lower p.1.name) := List.mem_filter.mpr ⟨hq, by simpa using same⟩
  rw [accessed_of_alone hp h.alone] at mem
  rw [List.mem_singleton.mp mem]

theorem length_walk {d : Message} {steps path : List String} (h : walk types d steps = some path) :
    path.length = steps.length := by
  induction steps generalizing d path with
  | nil =>
    cases Option.some.inj h
    rfl
  | cons step steps ih =>
    obtain ⟨w, -, h⟩ := Option.bind_eq_some_iff.mp h
    obtain ⟨rest, hrest, rfl⟩ := Option.map_eq_some_iff.mp h
    rw [List.length_cons, List.length_cons, ih hrest]

theorem walk_single {d : Message} {step : String} {path : List String}
    (h : walk types d [step] = some path) : ∃ w ∈ d.vars, lower w.name = step ∧ path = [w.name] := by
  obtain ⟨w, hw, h⟩ := Option.bind_eq_some_iff.mp h
  obtain ⟨rest, hrest, rfl⟩ := Option.map_eq_some_iff.mp h
  cases Option.some.inj hrest
  exact ⟨w, List.mem_of_find?_eq_some hw, by simpa using List.find?_some hw, rfl⟩

theorem steps_ofSteps {steps : List String} {path : FieldPath}
    (h : FieldPath.ofSteps steps = some path) : path.steps = steps := by
  obtain ⟨field, hf, rfl⟩ := Option.map_eq_some_iff.mp h
  exact List.dropLast_append_getLast? field hf

/-- An access path with one accessor leads to no `phi` field but the one it is for. -/
theorem OwnPhi.reached (h : OwnPhi m v) {steps : List String} {path : FieldPath}
    (hp : (walk types m steps).bind FieldPath.ofSteps = some path) (hs : path.steps = [v.name]) :
    ∀ w ∈ m.vars, steps = [lower w.name] → w = v := by
  rintro w hw rfl
  obtain ⟨names, hwalk, hp⟩ := Option.bind_eq_some_iff.mp hp
  obtain ⟨u, hu, hl, rfl⟩ := walk_single hwalk
  have name : u.name = v.name := by simpa [steps_ofSteps hp] using hs
  exact h.unique hw (by rw [← hl, name])

theorem mem_of_mapM {α β : Type} {f : α → Option β} {l : List α} {out : List β}
    (h : l.mapM f = some out) {y : β} (hy : y ∈ out) : ∃ x ∈ l, f x = some y := by
  induction l generalizing out with
  | nil =>
    cases Option.some.inj h
    simp at hy
  | cons x l ih =>
    rw [List.mapM_cons] at h
    obtain ⟨z, hz, h⟩ := Option.bind_eq_some_iff.mp h
    obtain ⟨rest, hrest, h⟩ := Option.bind_eq_some_iff.mp h
    cases Option.some.inj h
    rcases List.mem_cons.mp hy with rfl | hy
    · exact ⟨x, List.mem_cons_self, hz⟩
    · obtain ⟨w, hw, hf⟩ := ih hrest hy
      exact ⟨w, List.mem_cons_of_mem _ hw, hf⟩

theorem analyzeVar_phi {b : Backend} {fuel : Nat} (single : v.singular) (scalar : isScalarToken v.type)
    {c : Column} (hc : c ∈ (analyzeVar b types fuel m v).1) :
    c.isPhi = v.isPhi ∧ c.fkTable = false := by
  obtain ⟨plain, one⟩ : v.typeMap = [] ∧ .REPETEABLE ∉ v.modifiers := by
    simpa [Variable.singular] using single
  cases ht : v.type <;> simp_all [analyzeVar, isScalarToken, Harpia.scalar]

/-- The columns of the DAO that hold the value of a `phi` field of its message are `phi` columns. -/
theorem OwnPhi.column {S : Schema} (hm : m ∈ S.messages) (h : OwnPhi m v) {c : Column}
    (hc : c ∈ (analyze sqlite S.types S.fuel m).1) {col : DaoColumn}
    (spec : columnSpec S.types m c = some col) (value : col.presence = false)
    (hs : col.path.steps = [v.name]) : col.phi := by
  obtain ⟨path, hpath, rfl⟩ := Option.map_eq_some_iff.mp spec
  have plain : c.presenceOf = [] := by simpa using value
  rw [analyze_eq_emitted S hm] at hc
  obtain ⟨e, he, hc⟩ := List.mem_flatMap.mp hc
  obtain ⟨p, hp, he⟩ := List.mem_flatMap.mp he
  cases ht : embedTarget S.types p.1 with
  | none =>
    rw [ht, Option.elim_none, emitLeaf, List.mem_singleton] at he
    subst he
    have stored : HasColumn S.types p.1 ∨ Unresolved S.types p.1 := by
      by_contra hn
      obtain ⟨hcol, hun⟩ := not_or.mp hn
      simp [analyzeVar_of_neither hcol hun ht] at hc
    obtain ⟨-, embed, name⟩ := analyzeVar_column stored hc
    rw [exactPath, if_neg (not_not.mpr plain), if_neg (not_not.mpr embed)] at hpath
    cases Option.some.inj hpath
    have same : c.name = v.name := by simpa [FieldPath.steps] using hs
    have hv : p.1 = v := by
      refine h.unique ?_ (by rw [← name, same])
      rw [← map_fst_places]
      exact List.mem_map_of_mem hp
    rw [hv] at hc
    obtain ⟨phi, own⟩ := analyzeVar_phi h.single h.scalar hc
    simp [phi, own, h.phi]
  | some target =>
    simp only [ht, Option.elim_some, emitEmbed] at he
    rcases List.mem_cons.mp he with rfl | he
    · cases List.mem_singleton.mp hc
      simp [presenceColumn] at plain
    · -- the value of an embedded field lies at least two attributes down
      obtain ⟨e', he', rfl⟩ := List.mem_map.mp he
      have inner := emittedIn_columnAt (by simp) he' hc
      have access := congrArg List.length (inner.access rfl)
      obtain ⟨above, q, hchain, -⟩ := inner.stored
      have long : 2 ≤ c.accessPath.length := by
        rw [access, hchain]
        simp [accessors]
      rw [Column.accessPath, if_neg (not_not.mpr plain)] at long
      by_cases embed : c.embed = []
      · simp [embed] at long
      · rw [if_pos embed] at long
        rw [exactPath, if_neg (not_not.mpr plain), if_pos embed] at hpath
        obtain ⟨names, hwalk, hpath⟩ := Option.bind_eq_some_iff.mp hpath
        rw [← length_walk hwalk, ← steps_ofSteps hpath, hs] at long
        simp at long

theorem length_of_path {steps : List String} {path : FieldPath}
    (hp : (walk types m steps).bind FieldPath.ofSteps = some path) :
    path.steps.length = steps.length := by
  obtain ⟨names, hwalk, hp⟩ := Option.bind_eq_some_iff.mp hp
  rw [steps_ofSteps hp, length_walk hwalk]

theorem mapSpec_path {f : MapField} {child : DaoChild} (h : mapSpec types m f = some child) :
    (walk types m f.accessPath).bind FieldPath.ofSteps = some child.path := by
  obtain ⟨path, hp, rfl⟩ := Option.map_eq_some_iff.mp h
  exact hp

theorem repeatedSpec_path {f : RepeatedField} {child : DaoChild}
    (h : repeatedSpec types m f = some child) :
    (walk types m f.accessPath).bind FieldPath.ofSteps = some child.path := by
  cases f with
  | scalar =>
    obtain ⟨path, hp, rfl⟩ := Option.map_eq_some_iff.mp h
    exact hp
  | composed =>
    obtain ⟨elem, -, h⟩ := Option.bind_eq_some_iff.mp h
    obtain ⟨path, hp, h⟩ := Option.bind_eq_some_iff.mp h
    obtain ⟨columns, -, rfl⟩ := Option.map_eq_some_iff.mp h
    exact hp

theorem mem_vars_of_place {p : Place} (hp : p ∈ m.places) : p.1 ∈ m.vars := by
  rw [← map_fst_places]
  exact List.mem_map_of_mem hp

theorem OwnPhi.mapChild {S : Schema} (h : OwnPhi m v) (table : m.tableName ≠ "") {f : MapField}
    (hf : f ∈ mapFields sqlite S.types m) {child : DaoChild}
    (spec : mapSpec S.types m f = some child) : child.path.steps ≠ [v.name] := by
  intro hs
  have hp := mapSpec_path spec
  rw [mapFields_eq_traced] at hf
  obtain ⟨e, he, rfl⟩ := List.mem_map.mp hf
  rcases (mem_tracedMaps table).mp he with ⟨p, hmem, isMap, -, hf⟩ | ⟨p, -, -, d, -, q, -, -, -, hf⟩
  · have own := h.reached hp hs p.1 (mem_vars_of_place hmem) (mapField_access hf)
    have plain := h.single
    simp [Variable.singular, ← own, isMap] at plain
  · have length := length_of_path hp
    rw [mapField_access hf, hs] at length
    simp at length

theorem OwnPhi.repeatedChild {S : Schema} (h : OwnPhi m v) (table : m.tableName ≠ "")
    {f : RepeatedField} (hf : f ∈ repeatedFields sqlite S.types S.fuel m) {child : DaoChild}
    (spec : repeatedSpec S.types m f = some child) : child.path.steps ≠ [v.name] := by
  intro hs
  have hp := repeatedSpec_path spec
  rw [repeatedFields_eq_traced] at hf
  obtain ⟨e, he, rfl⟩ := List.mem_map.mp hf
  rcases (mem_tracedRepeateds table).mp he with ⟨p, hmem, -, hf⟩ | ⟨p, -, -, d, -, q, -, -, hf⟩
  · have own := h.reached hp hs p.1 (mem_vars_of_place hmem) (directRepeated_access hf)
    have single : .REPETEABLE ∉ p.1.modifiers := by
      have plain := h.single
      simp only [Variable.singular, decide_eq_true_eq] at plain
      rw [own]
      exact plain.2
    simp [directRepeated, single] at hf
  · have length := length_of_path hp
    rw [(embeddedScalar_access hf).2, hs] at length
    simp at length

end Source

section Generated

/-- A DAO that the generator makes for a table message of the schema. -/
structure IsDao (S : Schema) (dao : Dao) : Prop where
  mem : dao.message ∈ S.messages
  table : dao.message.tableName ≠ ""
  column : ∀ col ∈ dao.columns, ∃ c ∈ (analyze sqlite S.types S.fuel dao.message).1,
    columnSpec S.types dao.message c = some col
  child : ∀ child ∈ dao.children,
    (∃ f ∈ mapFields sqlite S.types dao.message, mapSpec S.types dao.message f = some child) ∨
      ∃ f ∈ repeatedFields sqlite S.types S.fuel dao.message,
        repeatedSpec S.types dao.message f = some child

theorem isDao_of_daoClass {S : Schema} {name : String} {dao : Dao}
    (h : daoClass S name = some dao) : IsDao S dao := by
  obtain ⟨m, hm, h⟩ := Option.bind_eq_some_iff.mp h
  obtain ⟨columns, hcolumns, h⟩ := Option.bind_eq_some_iff.mp h
  obtain ⟨maps, hmaps, h⟩ := Option.bind_eq_some_iff.mp h
  obtain ⟨repeateds, hrepeateds, rfl⟩ := Option.map_eq_some_iff.mp h
  have found := List.find?_some hm
  refine ⟨List.mem_of_find?_eq_some hm, ?_, ?_, ?_⟩
  · intro (none : m.tableName = "")
    simp only [decide_eq_true_eq, Message.kind, none] at found
    split at found <;> simp at found
  · intro col hcol
    obtain ⟨c, hc, spec⟩ := mem_of_mapM hcolumns hcol
    refine ⟨c, ?_, spec⟩
    rcases List.mem_append.mp hc with hc | hc
    · exact List.mem_of_mem_filter hc
    · exact List.mem_of_mem_filter hc
  · intro child hchild
    rcases List.mem_append.mp hchild with hchild | hchild
    · exact .inl (mem_of_mapM hmaps hchild)
    · exact .inr (mem_of_mapM hrepeateds hchild)

variable {S : Schema} {dao : Dao}

theorem IsDao.phi_column (h : IsDao S dao) {v : Variable} (hv : OwnPhi dao.message v)
    {col : DaoColumn} (hcol : col ∈ dao.columns) (value : col.presence = false)
    (hs : col.path.steps = [v.name]) : col.phi := by
  obtain ⟨c, hc, spec⟩ := h.column col hcol
  exact hv.column h.mem hc spec value hs

theorem IsDao.child_steps (h : IsDao S dao) {v : Variable} (hv : OwnPhi dao.message v)
    {child : DaoChild} (hc : child ∈ dao.children) : child.path.steps ≠ [v.name] := by
  rcases h.child child hc with ⟨f, hf, spec⟩ | ⟨f, hf, spec⟩
  · exact hv.mapChild h.table hf spec
  · exact hv.repeatedChild h.table hf spec

end Generated

end Harpia
