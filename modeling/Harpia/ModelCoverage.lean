import Harpia.ModelAccess

namespace Harpia

open Text

/-- The notes that say a field is not stored: their texts end in `(deferred)` or `(skipped)`. -/
def Note.deferred : Note → Bool
  | .repeatedComposedDeferred .. | .repeatedDeferred _ | .fkDeferred .. | .unsupported .. => true
  | .embeddedRepeatedComposed .. | .embeddedComposedDeferred .. | .embeddedUnsupported .. => true
  | _ => false

/-- The notes that say a field is stored in a child table. -/
def Note.inChildTable : Note → Bool
  | .mapChild _ | .repeatedChild _ | .repeatedLink .. | .repeatedComposed .. => true
  | .embeddedMap .. | .embeddedRepeated .. => true
  | _ => false

def emittedAt (b : Backend) (S : Schema) (msg : Message) (path : List Place) : List Emitted :=
  (emitted b S.types S.fuel msg).filter fun e => e.path = path

def mapsAt (b : Backend) (S : Schema) (msg : Message) (path : List Place) : List (Traced MapField) :=
  (tracedMaps b S.types msg).filter fun e => e.path = path

def repeatedsAt (b : Backend) (S : Schema) (msg : Message) (path : List Place) :
    List (Traced RepeatedField) :=
  (tracedRepeateds b S.types S.fuel msg).filter fun e => e.path = path

/-- The number of entries of the model for one field. -/
def entriesFor (b : Backend) (S : Schema) (msg : Message) (path : List Place) : Nat :=
  ((emittedAt b S msg path).flatMap Emitted.columns).length + (mapsAt b S msg path).length +
    (repeatedsAt b S msg path).length

/-- Every field below the table message is stored once or noted as not stored, and none is noted
as stored in a child table that is not there. -/
structure Covered (b : Backend) (S : Schema) (msg : Message) : Prop where
  stored : ∀ path, Chain S.types msg.visiblePlaces path → entriesFor b S msg path = 1 ∨
    ∃ e ∈ emittedAt b S msg path, ∃ n ∈ e.notes, n.deferred
  noted : ∀ path, Chain S.types msg.visiblePlaces path → ∀ e ∈ emittedAt b S msg path,
    ∀ n ∈ e.notes, n.inChildTable → mapsAt b S msg path ≠ [] ∨ repeatedsAt b S msg path ≠ []

def AllCovered (b : Backend) (S : Schema) : Prop :=
  ∀ msg ∈ S.messages, msg.tableName ≠ "" → Covered b S msg

/-- Maps have scalar keys and values, maps and repeated scalars are at most one embed deep, and the
elements of a repeated message have something to store. -/
structure ChildrenStorable (types : Types) (msg : Message) : Prop where
  maps : ∀ above q, Chain types msg.visiblePlaces (above ++ [q]) → q.1.typeMap ≠ [] →
    ScalarMap q.1 ∧ above.length ≤ 1
  repeateds : ∀ above q, Chain types msg.visiblePlaces (above ++ [q]) → RepeatedScalar q.1 →
    above.length ≤ 1
  elements : ∀ q ∈ msg.visiblePlaces, q.1.typeMap = [] → .REPETEABLE ∈ q.1.modifiers →
    ∀ m, composedTarget types q.1 = some m → ∃ position name, ElementColumn types m position name

def AllChildrenStorable (S : Schema) : Prop :=
  ∀ msg ∈ S.messages, msg.tableName ≠ "" → ChildrenStorable S.types msg

variable {b : Backend} {types : Types}

theorem places_nodup (m : Message) : m.places.Nodup := by
  refine List.Nodup.of_map Prod.snd ?_
  rw [Message.places, List.zipIdx_map_snd]
  exact List.nodup_range' ..

theorem visiblePlaces_nodup (m : Message) : m.visiblePlaces.Nodup := (places_nodup m).filter _

theorem flatMap_eq_single {α β : Type} {l : List α} (nodup : l.Nodup) {g : α → List β} {a : α}
    (ha : a ∈ l) (others : ∀ x ∈ l, x ≠ a → g x = []) : l.flatMap g = g a := by
  induction l with
  | nil => simp at ha
  | cons x l ih =>
    obtain ⟨absent, nodup⟩ := List.nodup_cons.mp nodup
    rw [List.flatMap_cons]
    rcases List.mem_cons.mp ha with rfl | ha
    · have none : l.flatMap g = [] := List.flatMap_eq_nil_iff.mpr fun x hx =>
        others x (List.mem_cons_of_mem _ hx) fun he => absent (he ▸ hx)
      rw [none, List.append_nil]
    · have hne : x ≠ a := fun he => absent (he ▸ ha)
      rw [others x List.mem_cons_self hne, List.nil_append]
      exact ih nodup ha fun y hy => others y (List.mem_cons_of_mem _ hy)

/-- Among entries whose paths start with the field they come from, those with a given path come
from its first field. -/
theorem filter_flatMap_path {α : Type} {l : List Place} (nodup : l.Nodup) (f : Place → List α)
    (path : α → List Place) (starts : ∀ q ∈ l, ∀ e ∈ f q, ∃ rest, path e = q :: rest) {p : Place}
    (hp : p ∈ l) (rest : List Place) :
    (l.flatMap f).filter (fun e => path e = p :: rest) =
      (f p).filter fun e => path e = p :: rest := by
  rw [List.filter_flatMap]
  refine flatMap_eq_single nodup hp fun q hq hne => ?_
  refine List.filter_eq_nil_iff.mpr fun e he => ?_
  obtain ⟨rest', hpath⟩ := starts q hq e he
  simp [hpath, hne]

theorem filter_path_leaf (p : Place) (out : Flattened) :
    (emitLeaf p out).filter (fun e => e.path = [p]) = emitLeaf p out := by
  simp [emitLeaf]

theorem filter_path_embed {p : Place} {columns : List Column} {inner : List Emitted}
    (below : ∀ e ∈ inner, e.path ≠ []) :
    (emitEmbed p columns inner).filter (fun e => e.path = [p]) = [⟨[p], columns, []⟩] := by
  have none : (inner.map (Emitted.under p)).filter (fun e => e.path = [p]) = [] := by
    refine List.filter_eq_nil_iff.mpr fun e he => ?_
    obtain ⟨e', he', rfl⟩ := List.mem_map.mp he
    simp [Emitted.under, below e' he']
  rw [emitEmbed, List.filter_cons_of_pos (by simp), none]

theorem filter_path_under {p : Place} {columns : List Column} {inner : List Emitted}
    {rest : List Place} (hr : rest ≠ []) :
    (emitEmbed p columns inner).filter (fun e => e.path = p :: rest) =
      (inner.filter fun e => e.path = rest).map (.under p) := by
  have head : ¬ [p] = p :: rest := by simpa [eq_comm] using hr
  rw [emitEmbed, List.filter_cons_of_neg (by simpa using head), List.filter_map]
  simp [Function.comp_def, Emitted.under]

theorem emittedIn_path {fuel : Nat} {owner : String} {m : Message} {embedPath : List String}
    {prefixed : Bool} : ∀ e ∈ emittedIn b types fuel owner m embedPath prefixed,
      ∃ p ∈ m.visiblePlaces, ∃ rest, e.path = p :: rest := by
  intro e he
  cases fuel with
  | zero => simp [emittedIn] at he
  | succ fuel =>
    rw [emittedIn] at he
    obtain ⟨p, hp, he⟩ := List.mem_flatMap.mp he
    refine ⟨p, hp, ?_⟩
    cases ht : embedTarget types p.1 with
    | none =>
      rw [ht, Option.elim_none, emitLeaf, List.mem_singleton] at he
      exact ⟨[], by rw [he]⟩
    | some target =>
      simp only [ht, Option.elim_some, emitEmbed] at he
      rcases List.mem_cons.mp he with rfl | he
      · exact ⟨[], rfl⟩
      · obtain ⟨e', -, rfl⟩ := List.mem_map.mp he
        exact ⟨e'.path, rfl⟩

/-- A repeated field of a declared message type. -/
def RepeatedRef (types : Types) (v : Variable) : Prop :=
  v.typeMap = [] ∧ .REPETEABLE ∈ v.modifiers ∧ ∃ target k m, v.type = .ID target ∧
    lookupType types target = some (k, m) ∧ k ≠ .enum

/-- The fields noted as stored in a child table. -/
def NotedChild (types : Types) (top : Bool) (v : Variable) : Prop :=
  v.typeMap ≠ [] ∨ RepeatedScalar v ∨ top = true ∧ RepeatedRef types v

/-- The emission that belongs to a field. -/
structure EmissionFor (types : Types) (top : Bool) (v : Variable) (e : Emitted) : Prop where
  column : HasColumn types v ∨ (embedTarget types v).isSome → e.columns.length = 1 ∧ e.notes = []
  child : NotedChild types top v → e.columns = [] ∧
    ∃ note, e.notes = [note] ∧ note.inChildTable ∧ note.deferred = false
  deferred : ¬ HasColumn types v → embedTarget types v = none → ¬ NotedChild types top v →
    ∃ note, e.notes = [note] ∧ note.inChildTable = false ∧ note.deferred

theorem notedChild_not_column {top : Bool} {v : Variable} (h : NotedChild types top v) :
    ¬ HasColumn types v ∧ embedTarget types v = none := by
  have embed : v.typeMap ≠ [] ∨ .REPETEABLE ∈ v.modifiers → embedTarget types v = none := by
    intro hg
    unfold embedTarget
    rw [if_neg]
    rintro ⟨plain, single⟩
    exact hg.elim (fun h => h plain) single
  have column : v.typeMap ≠ [] ∨ .REPETEABLE ∈ v.modifiers → ¬ HasColumn types v := by
    rintro hg ⟨plain, single, -⟩
    exact hg.elim (fun h => h plain) single
  have shown : v.typeMap ≠ [] ∨ .REPETEABLE ∈ v.modifiers := by
    rcases h with h | h | ⟨-, h⟩
    · exact .inl h
    · exact .inr h.2.1
    · exact .inr h.2.1
  exact ⟨column shown, embed shown⟩

theorem length_of_names {columns : List Column} {name : String}
    (h : columns.map Column.name = [name]) : columns.length = 1 := by
  have len := congrArg List.length h
  simpa using len

theorem emissionFor_embed {top : Bool} {v : Variable} {m : Message} {e : Emitted}
    (h : embedTarget types v = some m) (hc : e.columns.length = 1) (hn : e.notes = []) :
    EmissionFor types top v e := by
  refine ⟨fun _ => ⟨hc, hn⟩, fun child => ?_, fun _ none => ?_⟩
  · rw [(notedChild_not_column child).2] at h
    simp at h
  · rw [none] at h
    simp at h

theorem flattenVar_notes {recur : String → Message → List String → Bool → Flattened}
    {owner : String} {child : Message} {embedPath : List String} {v : Variable}
    (he : embedTarget types v = none) {p : Place} :
    EmissionFor types false v
      ⟨[p], (flattenVar b types recur owner child embedPath true v).1,
        (flattenVar b types recur owner child embedPath true v).2⟩ := by
  refine ⟨?_, ?_, ?_⟩
  · rintro (column | embed)
    · refine ⟨length_of_names (flattenVar_of_column column), ?_⟩
      obtain ⟨plain, single, hs | ⟨target, k, m, ht, hl, hk⟩⟩ := column
      · cases ht : v.type <;> simp_all [flattenVar, isScalarToken, scalar]
      · cases k <;> simp_all [flattenVar]
    · simp [he] at embed
  · rintro (hmap | ⟨plain, rep, hs⟩ | ⟨top, -⟩)
    · simp [flattenVar, hmap, Note.inChildTable, Note.deferred]
    · simp [flattenVar, plain, rep, hs, Note.inChildTable, Note.deferred]
    · simp at top
  · intro column _ child
    simp only [NotedChild, RepeatedScalar, Bool.false_eq_true, false_and, or_false, not_or,
      not_not, not_and] at child
    obtain ⟨plain, notScalar⟩ := child
    by_cases rep : .REPETEABLE ∈ v.modifiers
    · have hs := notScalar plain rep
      simp [flattenVar, plain, rep, hs, Note.inChildTable, Note.deferred]
    · cases ht : v.type with
      | ID target =>
        cases hl : lookupType types target with
        | none => simp [flattenVar, plain, rep, ht, hl, Note.inChildTable, Note.deferred]
        | some found =>
          obtain ⟨k, m⟩ := found
          cases k with
          | message => simp [embedTarget, plain, rep, ht, hl] at he
          | enum => exact absurd ⟨plain, rep, .inr ⟨target, _, m, ht, hl, by simp⟩⟩ column
          | table => exact absurd ⟨plain, rep, .inr ⟨target, _, m, ht, hl, by simp⟩⟩ column
      | other token =>
        simp [flattenVar, plain, rep, ht, scalar, Note.inChildTable, Note.deferred]
      | _ => exact absurd ⟨plain, rep, .inl (by simp [ht, isScalarToken])⟩ column

theorem analyzeVar_notes {fuel : Nat} {msg : Message} {v : Variable}
    (he : embedTarget types v = none) {p : Place} :
    EmissionFor types true v
      ⟨[p], (analyzeVar b types fuel msg v).1, (analyzeVar b types fuel msg v).2⟩ := by
  refine ⟨?_, ?_, ?_⟩
  · rintro (column | embed)
    · refine ⟨length_of_names (analyzeVar_of_column (.inl column)), ?_⟩
      obtain ⟨plain, single, hs | ⟨target, k, m, ht, hl, hk⟩⟩ := column
      · cases ht : v.type <;> simp_all [analyzeVar, isScalarToken, scalar]
      · cases k <;> simp_all [analyzeVar]
    · simp [he] at embed
  · rintro (hmap | ⟨plain, rep, hs⟩ | ⟨-, plain, rep, target, k, m, ht, hl, hk⟩)
    · simp [analyzeVar, hmap, Note.inChildTable, Note.deferred]
    · cases ht : v.type <;>
        simp_all [analyzeVar, isScalarToken, Note.inChildTable, Note.deferred]
    · cases k <;> simp_all [analyzeVar, Note.inChildTable, Note.deferred]
  · intro column _ child
    simp only [NotedChild, RepeatedScalar, RepeatedRef, true_and, not_or, not_not, not_and,
      not_exists] at child
    obtain ⟨plain, notScalar, notRef⟩ := child
    by_cases rep : .REPETEABLE ∈ v.modifiers
    · cases ht : v.type with
      | ID target =>
        cases hl : lookupType types target with
        | none => simp [analyzeVar, plain, rep, ht, hl, Note.inChildTable, Note.deferred]
        | some found =>
          obtain ⟨k, m⟩ := found
          have hk := notRef plain rep target k m ht hl
          subst hk
          simp [analyzeVar, plain, rep, ht, hl, Note.inChildTable, Note.deferred]
      | other token =>
        simp [analyzeVar, plain, rep, ht, isScalarToken, Note.inChildTable, Note.deferred]
      | _ => exact absurd (notScalar plain rep) (by simp [ht, isScalarToken])
    · cases ht : v.type with
      | ID target =>
        cases hl : lookupType types target with
        | none => simp [analyzeVar, plain, rep, ht, hl, Note.inChildTable, Note.deferred]
        | some found =>
          obtain ⟨k, m⟩ := found
          cases k with
          | message => simp [embedTarget, plain, rep, ht, hl] at he
          | enum => exact absurd ⟨plain, rep, .inr ⟨target, _, m, ht, hl, by simp⟩⟩ column
          | table => exact absurd ⟨plain, rep, .inr ⟨target, _, m, ht, hl, by simp⟩⟩ column
      | other token =>
        simp [analyzeVar, plain, rep, ht, scalar, Note.inChildTable, Note.deferred]
      | _ => exact absurd ⟨plain, rep, .inl (by simp [ht, isScalarToken])⟩ column

theorem EmissionFor.under {top : Bool} {v : Variable} {e : Emitted} (h : EmissionFor types top v e)
    (p : Place) : EmissionFor types top v (e.under p) := ⟨h.column, h.child, h.deferred⟩

/-- One field below an embedded message, one emission. -/
theorem emittedIn_at (S : Schema) {fuel : Nat} {owner : String} {m : Message}
    {embedPath : List String} (hm : m ∈ S.messages) (hr : S.rank m < fuel) {above : List Place}
    {q : Place} (hc : Chain S.types m.visiblePlaces (above ++ [q])) :
    ∃ e, (emittedIn b S.types fuel owner m embedPath true).filter
      (fun e => e.path = above ++ [q]) = [e] ∧ EmissionFor S.types false q.1 e := by
  induction fuel generalizing owner m embedPath above with
  | zero => omega
  | succ fuel ih =>
    have starts : ∀ p ∈ m.visiblePlaces, ∀ e ∈ (embedTarget S.types p.1).elim
        (emitLeaf p (flattenVar b S.types (fun _ _ _ _ => ([], [])) owner m embedPath true p.1))
        (fun m => emitEmbed p
          [presenceColumn b (owner ++ "_" ++ p.1.name) (embedPath ++ [lower p.1.name])]
          (emittedIn b S.types fuel (owner ++ "_" ++ p.1.name) m (embedPath ++ [lower p.1.name])
            true)), ∃ rest, e.path = p :: rest := by
      intro p _ e he
      cases ht : embedTarget S.types p.1 with
      | none =>
        rw [ht, Option.elim_none, emitLeaf, List.mem_singleton] at he
        exact ⟨[], by rw [he]⟩
      | some target =>
        rw [ht, Option.elim_some, emitEmbed] at he
        rcases List.mem_cons.mp he with rfl | he
        · exact ⟨[], rfl⟩
        · obtain ⟨e', -, rfl⟩ := List.mem_map.mp he
          exact ⟨e'.path, rfl⟩
    have inner : ∀ (name : String) (t : Message) (path : List String),
        ∀ e ∈ emittedIn b S.types fuel name t path true, e.path ≠ [] := by
      intro name t path e he
      obtain ⟨p, -, rest, hpath⟩ := emittedIn_path e he
      simp [hpath]
    simp only [emittedIn, ↓reduceIte]
    cases above with
    | nil =>
      obtain ⟨hq, -⟩ := chain_cons hc
      rw [List.nil_append, filter_flatMap_path (visiblePlaces_nodup m) _ Emitted.path starts hq]
      cases ht : embedTarget S.types q.1 with
      | none =>
        rw [Option.elim_none, filter_path_leaf]
        exact ⟨_, rfl, flattenVar_notes ht⟩
      | some target =>
        rw [Option.elim_some, filter_path_embed (inner _ _ _)]
        exact ⟨_, rfl, emissionFor_embed ht rfl rfl⟩
    | cons p above =>
      obtain ⟨hp, hnil | ⟨t, ht, hc⟩⟩ := chain_cons hc
      · simp at hnil
      · have hv : p.1 ∈ m.visible := by
          rw [← map_fst_visiblePlaces]
          exact List.mem_map_of_mem hp
        obtain ⟨htm, hlt⟩ := embed_rank_lt hm (mem_vars_of_visible hv) ht
        have below : ∃ e, (emittedIn b S.types fuel (owner ++ "_" ++ p.1.name) t
            (embedPath ++ [lower p.1.name]) true).filter (fun e => e.path = above ++ [q]) = [e] ∧
            EmissionFor S.types false q.1 e := ih htm (by omega) hc
        obtain ⟨e, hfilter, emission⟩ := below
        rw [List.cons_append, filter_flatMap_path (visiblePlaces_nodup m) _ Emitted.path starts hp,
          ht, Option.elim_some, filter_path_under (by simp), hfilter]
        exact ⟨_, rfl, emission.under p⟩

/-- One field below the table message, one emission. -/
theorem emittedAt_eq {S : Schema} {msg : Message} (hm : msg ∈ S.messages) {above : List Place}
    {q : Place} (hc : Chain S.types msg.places (above ++ [q])) :
    ∃ e, emittedAt b S msg (above ++ [q]) = [e] ∧ EmissionFor S.types above.isEmpty q.1 e := by
  have starts : ∀ p ∈ msg.places, ∀ e ∈ (embedTarget S.types p.1).elim
      (emitLeaf p (analyzeVar b S.types 0 msg p.1))
      (fun m => emitEmbed p [presenceColumn b p.1.name [lower p.1.name]]
        (emittedIn b S.types S.fuel p.1.name m [lower p.1.name] true)),
      ∃ rest, e.path = p :: rest := by
    intro p _ e he
    cases ht : embedTarget S.types p.1 with
    | none =>
      rw [ht, Option.elim_none, emitLeaf, List.mem_singleton] at he
      exact ⟨[], by rw [he]⟩
    | some target =>
      rw [ht, Option.elim_some, emitEmbed] at he
      rcases List.mem_cons.mp he with rfl | he
      · exact ⟨[], rfl⟩
      · obtain ⟨e', -, rfl⟩ := List.mem_map.mp he
        exact ⟨e'.path, rfl⟩
  rw [emittedAt, emitted]
  cases above with
  | nil =>
    obtain ⟨hq, -⟩ := chain_cons hc
    rw [List.nil_append, filter_flatMap_path (places_nodup msg) _ Emitted.path starts hq]
    cases ht : embedTarget S.types q.1 with
    | none =>
      rw [Option.elim_none, filter_path_leaf]
      exact ⟨_, rfl, analyzeVar_notes ht⟩
    | some target =>
      have inner : ∀ e ∈ emittedIn b S.types S.fuel q.1.name target [lower q.1.name] true,
          e.path ≠ [] := by
        intro e he
        obtain ⟨p, -, rest, hpath⟩ := emittedIn_path e he
        simp [hpath]
      rw [Option.elim_some, filter_path_embed inner]
      exact ⟨_, rfl, emissionFor_embed ht rfl rfl⟩
  | cons p above =>
    obtain ⟨hp, hnil | ⟨t, ht, hc⟩⟩ := chain_cons hc
    · simp at hnil
    · have hv : p.1 ∈ msg.vars := by
        rw [← map_fst_places]
        exact List.mem_map_of_mem hp
      obtain ⟨htm, -⟩ := embed_rank_lt hm hv ht
      have below : ∃ e, (emittedIn b S.types S.fuel p.1.name t [lower p.1.name] true).filter
          (fun e => e.path = above ++ [q]) = [e] ∧ EmissionFor S.types false q.1 e :=
        emittedIn_at S htm (S.rank_lt_fuel htm) hc
      obtain ⟨e, hfilter, emission⟩ := below
      rw [List.cons_append, filter_flatMap_path (places_nodup msg) _ Emitted.path starts hp,
        ht, Option.elim_some, filter_path_under (by simp), hfilter]
      exact ⟨_, rfl, emission.under p⟩

theorem filter_traced {α : Type} (path path' : List Place) (entries : List α) :
    (traced path entries).filter (fun e => e.path = path') =
      if path = path' then traced path entries else [] := by
  by_cases h : path = path'
  · rw [if_pos h]
    refine List.filter_eq_self.mpr fun e he => ?_
    obtain ⟨x, -, rfl⟩ := List.mem_map.mp he
    simpa using h
  · rw [if_neg h]
    refine List.filter_eq_nil_iff.mpr fun e he => ?_
    obtain ⟨x, -, rfl⟩ := List.mem_map.mp he
    simpa using h

/-- Child entries one embed down, by the field in the embedded message. -/
theorem filter_traced_pair {α : Type} {m : Message} (p : Place) (f : Place → List α) {q : Place}
    (hq : q ∈ m.visiblePlaces) :
    (m.visiblePlaces.flatMap fun q => traced [p, q] (f q)).filter (fun e => e.path = [p, q]) =
      traced [p, q] (f q) := by
  have others : ∀ q' ∈ m.visiblePlaces, q' ≠ q →
      (traced [p, q'] (f q')).filter (fun e => e.path = [p, q]) = [] := by
    intro q' _ hne
    rw [filter_traced, if_neg (by simpa using hne)]
  rw [List.filter_flatMap, flatMap_eq_single (visiblePlaces_nodup m) hq others, filter_traced,
    if_pos rfl]

theorem traced_path {α : Type} {path : List Place} {entries : List α} {e : Traced α}
    (h : e ∈ traced path entries) : e.path = path := by
  obtain ⟨x, -, rfl⟩ := List.mem_map.mp h
  rfl

/-- The paths of child entries have one or two fields, and two only below a plain field. -/
theorem filter_traced_long {α : Type} {es : List (Traced α)} {path : List Place}
    (short : ∀ e ∈ es, e.path.length ≤ 2) (long : 2 < path.length) :
    es.filter (fun e => e.path = path) = [] := by
  refine List.filter_eq_nil_iff.mpr fun e he => ?_
  have len := short e he
  intro hpath
  rw [of_decide_eq_true hpath] at len
  omega

section Children

variable {S : Schema} {msg : Message}

theorem mapsAt_long (ht : msg.tableName ≠ "") {path : List Place} (long : 2 < path.length) :
    mapsAt b S msg path = [] := by
  refine filter_traced_long (fun e he => ?_) long
  rcases (mem_tracedMaps ht).mp he with ⟨p, -, -, hpath, -⟩ | ⟨p, -, -, m, -, q, -, -, hpath, -⟩
  · simp [hpath]
  · simp [hpath]

theorem repeatedsAt_long (ht : msg.tableName ≠ "") {path : List Place} (long : 2 < path.length) :
    repeatedsAt b S msg path = [] := by
  refine filter_traced_long (fun e he => ?_) long
  rcases (mem_tracedRepeateds ht).mp he with ⟨p, -, hpath, -⟩ | ⟨p, -, -, m, -, q, -, hpath, -⟩
  · simp [hpath]
  · simp [hpath]

theorem mapsAt_eq (ht : msg.tableName ≠ "") {p : Place} (hp : p ∈ msg.places) (rest : List Place) :
    mapsAt b S msg (p :: rest) =
      (if p.1.typeMap ≠ [] then traced [p] (mapField b msg.tableName p.1 none).toList
        else (composedTarget S.types p.1).elim [] fun target => target.visiblePlaces.flatMap fun q =>
          traced [p, q] (embeddedMap b msg.tableName (lower p.1.name) q.1)).filter
        fun e => e.path = p :: rest := by
  rw [mapsAt, tracedMaps, if_neg ht]
  refine filter_flatMap_path (places_nodup msg) _ Traced.path (fun q _ e he => ?_) hp rest
  split at he
  · exact ⟨[], traced_path he⟩
  · cases hm : composedTarget S.types q.1 with
    | none => simp [hm] at he
    | some m =>
      rw [hm, Option.elim_some] at he
      obtain ⟨q', -, he⟩ := List.mem_flatMap.mp he
      exact ⟨[q'], traced_path he⟩

theorem length_mapField (table : String) (v : Variable) (embed : Option String) :
    (ScalarMap v → (mapField b table v embed).toList.length = 1) ∧
      (¬ ScalarMap v → (mapField b table v embed).toList = []) := by
  have some := mapField_isSome_iff (b := b) table v embed
  constructor
  · intro h
    obtain ⟨f, hf⟩ := Option.isSome_iff_exists.mp (some.mpr h)
    simp [hf]
  · intro h
    rw [← some, Option.not_isSome_iff_eq_none] at h
    simp [h]

theorem length_mapsAt_own (ht : msg.tableName ≠ "") {p : Place} (hp : p ∈ msg.places) :
    (ScalarMap p.1 → (mapsAt b S msg [p]).length = 1) ∧
      (¬ ScalarMap p.1 → mapsAt b S msg [p] = []) := by
  have own := length_mapField (b := b) msg.tableName p.1 none
  rw [mapsAt_eq ht hp]
  by_cases hmap : p.1.typeMap = []
  · have none : ¬ ScalarMap p.1 := fun h => typeMap_ne_nil h hmap
    refine ⟨fun h => absurd h none, fun _ => ?_⟩
    rw [if_neg (not_not.mpr hmap)]
    refine List.filter_eq_nil_iff.mpr fun e he => ?_
    cases hm : composedTarget S.types p.1 with
    | none => simp [hm] at he
    | some m =>
      rw [hm, Option.elim_some] at he
      obtain ⟨q', -, he⟩ := List.mem_flatMap.mp he
      simp [traced_path he]
  · rw [if_pos hmap, filter_traced, if_pos rfl]
    refine ⟨fun h => ?_, fun h => ?_⟩
    · rw [traced, List.length_map]
      exact own.1 h
    · rw [own.2 h]
      rfl

theorem length_mapsAt_embedded (ht : msg.tableName ≠ "") {p q : Place} (hp : p ∈ msg.places)
    (plain : p.1.typeMap = []) {m : Message} (hm : composedTarget S.types p.1 = some m)
    (hq : q ∈ m.visiblePlaces) :
    (ScalarMap q.1 → (mapsAt b S msg [p, q]).length = 1) ∧
      (¬ ScalarMap q.1 → mapsAt b S msg [p, q] = []) := by
  have inner := length_mapField (b := b) msg.tableName q.1 (some (lower p.1.name))
  rw [mapsAt_eq ht hp, if_neg (not_not.mpr plain), hm, Option.elim_some,
    filter_traced_pair p _ hq]
  by_cases hmap : q.1.typeMap = []
  · have none : ¬ ScalarMap q.1 := fun h => typeMap_ne_nil h hmap
    refine ⟨fun h => absurd h none, fun _ => ?_⟩
    simp [embeddedMap, hmap, traced]
  · rw [embeddedMap, if_pos hmap]
    refine ⟨fun h => ?_, fun h => ?_⟩
    · rw [traced, List.length_map]
      exact inner.1 h
    · rw [inner.2 h]
      rfl

theorem length_directRepeated_le (fuel : Nat) (table : String) (v : Variable) :
    (directRepeated b types fuel table v).length ≤ 1 := by
  unfold directRepeated
  extract_lets child
  split
  · simp
  · split
    · split
      · simp
      · extract_lets cols
        split <;> simp
      · simp
    · split <;> simp

theorem repeatedsAt_eq (ht : msg.tableName ≠ "") {p : Place} (hp : p ∈ msg.places)
    (rest : List Place) :
    repeatedsAt b S msg (p :: rest) =
      ((traced [p] (directRepeated b S.types S.fuel msg.tableName p.1)).filter
        fun e => e.path = p :: rest) ++
      (if p.1.typeMap ≠ [] then []
        else (composedTarget S.types p.1).elim [] fun target => target.visiblePlaces.flatMap fun q =>
          traced [p, q] (embeddedScalar b msg.tableName (lower p.1.name) q.1)).filter
        fun e => e.path = p :: rest := by
  rw [repeatedsAt, tracedRepeateds, if_neg ht, List.filter_append]
  congr 1
  · refine filter_flatMap_path (places_nodup msg) _ Traced.path (fun q _ e he => ?_) hp rest
    exact ⟨[], traced_path he⟩
  · refine filter_flatMap_path (places_nodup msg) _ Traced.path (fun q _ e he => ?_) hp rest
    split at he
    · simp at he
    · cases hm : composedTarget S.types q.1 with
      | none => simp [hm] at he
      | some m =>
        rw [hm, Option.elim_some] at he
        obtain ⟨q', -, he⟩ := List.mem_flatMap.mp he
        exact ⟨[q'], traced_path he⟩

theorem length_repeatedsAt_own (ht : msg.tableName ≠ "") {p : Place} (hp : p ∈ msg.places) :
    (RepeatedScalar p.1 ∨ RepeatedMessage S.types p.1 → (repeatedsAt b S msg [p]).length = 1) ∧
      (¬ (RepeatedScalar p.1 ∨ RepeatedMessage S.types p.1) → repeatedsAt b S msg [p] = []) := by
  have inner : (if p.1.typeMap ≠ [] then []
      else (composedTarget S.types p.1).elim [] fun target => target.visiblePlaces.flatMap fun q =>
        traced [p, q] (embeddedScalar b msg.tableName (lower p.1.name) q.1)).filter
      (fun e => e.path = [p]) = [] := by
    refine List.filter_eq_nil_iff.mpr fun e he => ?_
    split at he
    · simp at he
    · cases hm : composedTarget S.types p.1 with
      | none => simp [hm] at he
      | some m =>
        rw [hm, Option.elim_some] at he
        obtain ⟨q', -, he⟩ := List.mem_flatMap.mp he
        simp [traced_path he]
  have entry := directRepeated_exists (b := b) S msg.tableName p.1
  have len : (directRepeated b S.types S.fuel msg.tableName p.1).length ≤ 1 :=
    length_directRepeated_le _ _ _
  rw [repeatedsAt_eq ht hp, inner, List.append_nil, filter_traced, if_pos rfl]
  refine ⟨fun h => ?_, fun h => ?_⟩
  · obtain ⟨r, hr⟩ := entry.mpr h
    have pos := List.length_pos_of_mem hr
    rw [traced, List.length_map]
    omega
  · have none : directRepeated b S.types S.fuel msg.tableName p.1 = [] :=
      List.eq_nil_iff_forall_not_mem.mpr fun r hr => h (entry.mp ⟨r, hr⟩)
    rw [none]
    rfl

theorem length_repeatedsAt_embedded (ht : msg.tableName ≠ "") {p q : Place} (hp : p ∈ msg.places)
    (plain : p.1.typeMap = []) {m : Message} (hm : composedTarget S.types p.1 = some m)
    (hq : q ∈ m.visiblePlaces) :
    (RepeatedScalar q.1 → (repeatedsAt b S msg [p, q]).length = 1) ∧
      (¬ RepeatedScalar q.1 → repeatedsAt b S msg [p, q] = []) := by
  rw [repeatedsAt_eq ht hp, if_neg (not_not.mpr plain), hm, Option.elim_some,
    filter_traced_pair p _ hq, filter_traced, if_neg (by simp), List.nil_append]
  refine ⟨fun h => ?_, fun h => ?_⟩
  · obtain ⟨found, hf⟩ := Option.isSome_iff_exists.mp ((scalar_isSome_iff (b := b) _).mpr h.2.2)
    simp [traced, embeddedScalar, h.1, h.2.1, hf]
  · have none : embeddedScalar b msg.tableName (lower p.1.name) q.1 = [] :=
      List.eq_nil_iff_forall_not_mem.mpr fun r hr => h (embeddedScalar_access hr).1
    rw [none]
    rfl

/-- The fields that get a child table, by the fields above them. -/
def StoredChild (types : Types) (above : List Place) (v : Variable) : Prop :=
  (ScalarMap v ∨ RepeatedScalar v) ∧ above.length ≤ 1 ∨ above = [] ∧ RepeatedMessage types v

theorem scalarMap_not_repeated (types : Types) {v : Variable} (h : ScalarMap v) :
    ¬ RepeatedScalar v ∧ ¬ RepeatedMessage types v :=
  ⟨fun hr => typeMap_ne_nil h hr.1, fun hr => typeMap_ne_nil h hr.1⟩

theorem chain_places {path : List Place} (h : Chain types msg.visiblePlaces path) :
    Chain types msg.places path := by
  cases h with
  | last hp => exact .last (mem_places_of_visible hp)
  | step hp hm hc => exact .step (mem_places_of_visible hp) hm hc

/-- A field has one child entry or none. -/
theorem childEntries (ht : msg.tableName ≠ "") {above : List Place} {q : Place}
    (hc : Chain S.types msg.places (above ++ [q])) :
    (StoredChild S.types above q.1 →
        (mapsAt b S msg (above ++ [q])).length + (repeatedsAt b S msg (above ++ [q])).length = 1) ∧
      (¬ StoredChild S.types above q.1 →
        mapsAt b S msg (above ++ [q]) = [] ∧ repeatedsAt b S msg (above ++ [q]) = []) := by
  rcases above with _ | ⟨p, _ | ⟨p', above⟩⟩
  · -- a field of the table message itself
    obtain ⟨hq, -⟩ := chain_cons hc
    have maps := length_mapsAt_own (b := b) (S := S) ht hq
    have reps := length_repeatedsAt_own (b := b) (S := S) ht hq
    rw [List.nil_append]
    constructor
    · intro stored
      by_cases hmap : ScalarMap q.1
      · rw [maps.1 hmap, reps.2 (not_or.mpr (scalarMap_not_repeated S.types hmap))]
        rfl
      · have rep : RepeatedScalar q.1 ∨ RepeatedMessage S.types q.1 := by
          rcases stored with ⟨hm | hr, -⟩ | ⟨-, hr⟩
          · exact absurd hm hmap
          · exact .inl hr
          · exact .inr hr
        rw [maps.2 hmap, reps.1 rep]
        rfl
    · intro none
      refine ⟨maps.2 fun h => none (.inl ⟨.inl h, by simp⟩), reps.2 ?_⟩
      rintro (h | h)
      · exact none (.inl ⟨.inr h, by simp⟩)
      · exact none (.inr ⟨rfl, h⟩)
  · -- a field of an embedded message
    obtain ⟨hp, hnil | ⟨m, hm, hc⟩⟩ := chain_cons hc
    · simp at hnil
    obtain ⟨hq, -⟩ := chain_cons hc
    obtain ⟨plain, single, target, hid, hl⟩ := embedTarget_eq_some hm
    have composed : composedTarget S.types p.1 = some m := by simp [composedTarget, hid, hl]
    have maps := length_mapsAt_embedded (b := b) ht hp plain composed hq
    have reps := length_repeatedsAt_embedded (b := b) ht hp plain composed hq
    have path : [p] ++ [q] = [p, q] := rfl
    rw [path]
    constructor
    · intro stored
      rcases stored with ⟨hmap | hrep, -⟩ | ⟨hnil, -⟩
      · rw [maps.1 hmap, reps.2 (scalarMap_not_repeated S.types hmap).1]
        rfl
      · have hmap : ¬ ScalarMap q.1 := fun h => (scalarMap_not_repeated S.types h).1 hrep
        rw [maps.2 hmap, reps.1 hrep]
        rfl
      · simp at hnil
    · intro none
      exact ⟨maps.2 fun h => none (.inl ⟨.inl h, by simp⟩),
        reps.2 fun h => none (.inl ⟨.inr h, by simp⟩)⟩
  · -- deeper down neither traversal looks
    have long : 2 < (p :: p' :: above ++ [q]).length := by
      simp only [List.length_append, List.length_cons, List.length_nil]
      omega
    constructor
    · rintro (⟨-, h⟩ | ⟨h, -⟩) <;> simp at h
    · exact fun _ => ⟨mapsAt_long ht long, repeatedsAt_long ht long⟩

theorem notedChild_of_stored {above : List Place} {v : Variable} (h : StoredChild types above v) :
    NotedChild types above.isEmpty v := by
  rcases h with ⟨hmap | hrep, -⟩ | ⟨rfl, plain, rep, target, k, m, ht, hl, hk⟩
  · exact .inl (typeMap_ne_nil hmap)
  · exact .inr (.inl hrep)
  · refine .inr (.inr ⟨rfl, plain, rep, target, k, m, ht, hl, ?_⟩)
    rintro rfl
    simp at hk

/-- A table message is covered exactly if every field noted as stored in a child table has one. -/
theorem covered_iff_stored (hm : msg ∈ S.messages) (ht : msg.tableName ≠ "") :
    Covered b S msg ↔ ∀ above q, Chain S.types msg.visiblePlaces (above ++ [q]) →
      NotedChild S.types above.isEmpty q.1 → StoredChild S.types above q.1 := by
  constructor
  · intro h above q hc noted
    by_contra hn
    obtain ⟨e, he, emission⟩ := emittedAt_eq (b := b) hm (chain_places hc)
    obtain ⟨-, note, hnotes, inChild, -⟩ := emission.child noted
    obtain ⟨noMaps, noReps⟩ := (childEntries (b := b) ht (chain_places hc)).2 hn
    have found := h.noted _ hc e (by rw [he]; exact List.mem_singleton_self _) note
      (by rw [hnotes]; exact List.mem_singleton_self _) inChild
    exact found.elim (fun h => h noMaps) fun h => h noReps
  · intro h
    have last : ∀ path, Chain S.types msg.visiblePlaces path → ∃ above q, path = above ++ [q] := by
      intro path hc
      have hne : path ≠ [] := by cases hc <;> simp
      exact ⟨path.dropLast, path.getLast hne, (List.dropLast_append_getLast hne).symm⟩
    refine ⟨fun path hc => ?_, fun path hc e he note hnote inChild => ?_⟩
    · obtain ⟨above, q, rfl⟩ := last path hc
      obtain ⟨e, he, emission⟩ := emittedAt_eq (b := b) hm (chain_places hc)
      obtain ⟨stored, bare⟩ := childEntries (b := b) ht (chain_places hc)
      rw [entriesFor, he]
      by_cases noted : NotedChild S.types above.isEmpty q.1
      · left
        rw [List.flatMap_singleton, (emission.child noted).1, List.length_nil, Nat.zero_add]
        exact stored (h above q hc noted)
      · obtain ⟨noMaps, noReps⟩ := bare fun hs => noted (notedChild_of_stored hs)
        by_cases column : HasColumn S.types q.1 ∨ (embedTarget S.types q.1).isSome
        · left
          rw [List.flatMap_singleton, (emission.column column).1, noMaps, noReps]
          rfl
        · right
          obtain ⟨hcol, hemb⟩ := not_or.mp column
          obtain ⟨note, hnotes, -, deferred⟩ :=
            emission.deferred hcol (Option.not_isSome_iff_eq_none.mp hemb) noted
          exact ⟨e, List.mem_singleton_self _, note, by rw [hnotes]; exact List.mem_singleton_self _,
            deferred⟩
    · obtain ⟨above, q, rfl⟩ := last path hc
      obtain ⟨e', he', emission⟩ := emittedAt_eq (b := b) hm (chain_places hc)
      rw [he', List.mem_singleton] at he
      subst he
      have noted : NotedChild S.types above.isEmpty q.1 := by
        by_contra hn
        by_cases column : HasColumn S.types q.1 ∨ (embedTarget S.types q.1).isSome
        · rw [(emission.column column).2] at hnote
          simp at hnote
        · obtain ⟨hcol, hemb⟩ := not_or.mp column
          obtain ⟨note', hnotes, out, -⟩ :=
            emission.deferred hcol (Option.not_isSome_iff_eq_none.mp hemb) hn
          rw [hnotes, List.mem_singleton] at hnote
          subst hnote
          rw [out] at inChild
          simp at inChild
      have one := (childEntries (b := b) ht (chain_places hc)).1 (h above q hc noted)
      by_contra hn
      obtain ⟨noMaps, noReps⟩ := not_or.mp hn
      rw [not_not.mp noMaps, not_not.mp noReps] at one
      simp at one

theorem storable_iff_stored :
    ChildrenStorable S.types msg ↔ ∀ above q, Chain S.types msg.visiblePlaces (above ++ [q]) →
      NotedChild S.types above.isEmpty q.1 → StoredChild S.types above q.1 := by
  constructor
  · rintro h above q hc (hmap | hrep | ⟨top, plain, rep, target, k, m, ht, hl, hk⟩)
    · obtain ⟨scalars, depth⟩ := h.maps above q hc hmap
      exact .inl ⟨.inl scalars, depth⟩
    · exact .inl ⟨.inr hrep, h.repeateds above q hc hrep⟩
    · obtain rfl := List.isEmpty_iff.mp top
      obtain ⟨hq, -⟩ := chain_cons hc
      refine .inr ⟨rfl, plain, rep, target, k, m, ht, hl, ?_⟩
      cases k with
      | enum => exact absurd rfl hk
      | table => exact .inl rfl
      | message =>
        have composed : composedTarget S.types q.1 = some m := by simp [composedTarget, ht, hl]
        exact .inr ⟨rfl, h.elements q hq plain rep m composed⟩
  · intro h
    refine ⟨fun above q hc hmap => ?_, fun above q hc hrep => ?_, fun q hq plain rep m hm => ?_⟩
    · rcases h above q hc (.inl hmap) with ⟨hs | hs, depth⟩ | ⟨-, hs⟩
      · exact ⟨hs, depth⟩
      · exact absurd hs.1 hmap
      · exact absurd hs.1 hmap
    · rcases h above q hc (.inr (.inl hrep)) with ⟨-, depth⟩ | ⟨hnil, -⟩
      · exact depth
      · simp [hnil]
    · obtain ⟨target, ht, hl⟩ := composedTarget_eq_some hm
      have noted : NotedChild S.types true q.1 :=
        .inr (.inr ⟨rfl, plain, rep, target, _, m, ht, hl, by simp⟩)
      rcases h [] q (.last hq) noted with ⟨hs | hs, -⟩ | ⟨-, -, -, target', k', m', ht', hl', hs⟩
      · exact absurd plain (typeMap_ne_nil hs)
      · rw [RepeatedScalar, ht] at hs
        simp [isScalarToken] at hs
      · rw [ht, TypeToken.ID.injEq] at ht'
        subst ht'
        rw [hl, Option.some.injEq, Prod.mk.injEq] at hl'
        obtain ⟨rfl, rfl⟩ := hl'
        exact hs.elim (fun h => by simp at h) fun h => h.2

end Children

theorem allCovered_iff_storable (b : Backend) (S : Schema) :
    AllCovered b S ↔ AllChildrenStorable S := by
  refine forall_congr' fun msg => forall_congr' fun hm => forall_congr' fun ht => ?_
  exact (covered_iff_stored hm ht).trans storable_iff_stored.symm

def labelled : Message :=
  { name := "label", user := [{ name := "tags", type := .STRING, typeMap := [.STRING, .STRING] }] }

def boxed : Message := { name := "box", user := [{ name := "label", type := .ID "label" }] }

/-- A map two embeds below the table message. -/
def boxShop : Message :=
  { name := "shop", tableName := "shops", user := [{ name := "box", type := .ID "box" }] }

def boxShopSchema : Schema where
  messages := [labelled, boxed, boxShop]
  names_nodup := by decide
  names_allowed := by decide +kernel
  tables_identifier := by decide +kernel
  rank m := if m.name = "label" then 0 else if m.name = "box" then 1 else 2
  rank_lt := by decide +kernel
  declared_before := by decide +kernel

def boxTags : List Place :=
  [({ name := "box", type := .ID "box" }, 1), ({ name := "label", type := .ID "label" }, 1),
    ({ name := "tags", type := .STRING, typeMap := [.STRING, .STRING] }, 1)]

/-- `box.label.tags` is noted as stored in a child table, and there is none. -/
theorem not_allCovered_boxShop : ¬ AllCovered sqlite boxShopSchema := by
  intro h
  have covered := h boxShop (by simp [boxShopSchema]) (by decide)
  have chain : Chain boxShopSchema.types boxShop.visiblePlaces boxTags := by
    have inBox : embedTarget boxShopSchema.types { name := "box", type := .ID "box" } = some boxed := by
      decide +kernel
    have inLabel : embedTarget boxShopSchema.types { name := "label", type := .ID "label" } =
        some labelled := by
      decide +kernel
    exact .step (by decide +kernel) inBox (.step (by decide +kernel) inLabel
      (.last (by decide +kernel)))
  have lost : ¬ (entriesFor sqlite boxShopSchema boxShop boxTags = 1 ∨
      ∃ e ∈ emittedAt sqlite boxShopSchema boxShop boxTags, ∃ n ∈ e.notes, n.deferred) := by
    decide +kernel
  exact lost (covered.stored _ chain)

end Harpia
