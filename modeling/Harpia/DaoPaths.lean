import Harpia.DaoReadRows
import Harpia.ModelCoverage

namespace Harpia

open Text Proto

/-- The names of the fields of a path. -/
def spelled (path : List Place) : List String := path.map fun p => p.1.name

section Resolve

variable {types : Types} {m : Message} {steps steps' : List String} {path path' above above' : List Place}
  {p p' : Place}

theorem resolve_ne_nil (h : resolve types m steps = some path) : path ≠ [] := by
  intro none_
  have spelled_ := walk_of_resolve h
  cases steps with
  | nil => cases h
  | cons accessor steps =>
    rw [none_, List.map_nil] at spelled_
    obtain ⟨v, _, spelled_⟩ := Option.bind_eq_some_iff.mp spelled_
    obtain ⟨_, _, same⟩ := Option.map_eq_some_iff.mp spelled_
    cases same

/-- The first field of a path is the only one with its accessor; below it, the path goes on in the
message that it embeds. -/
theorem resolve_cons (h : resolve types m steps = some path) :
    ∃ p rest accessor steps', path = p :: rest ∧ steps = accessor :: steps' ∧
      lower p.1.name = accessor ∧ m.accessed accessor = [p] ∧ (rest = [] ∨
        ∃ m', embedTarget types p.1 = some m' ∧ resolve types m' steps' = some rest) := by
  cases steps with
  | nil => cases h
  | cons accessor steps =>
    have one : (m.accessed accessor).length = 1 := by
      by_contra hn
      cases steps <;> simp [resolve, hn] at h
    obtain ⟨p, hp⟩ := List.length_eq_one_iff.mp one
    have named : lower p.1.name = accessor := by
      have mem : p ∈ m.accessed accessor := by rw [hp]; exact List.mem_singleton_self p
      simpa using (List.mem_filter.mp mem).2
    cases steps with
    | nil =>
      rw [resolve, hp] at h
      cases Option.some.inj h
      exact ⟨p, [], accessor, [], rfl, rfl, named, hp, .inl rfl⟩
    | cons next steps =>
      rw [resolve, hp] at h
      · simp only [List.length_singleton, ↓reduceIte, List.head?_cons, Option.bind_some] at h
        obtain ⟨m', hm', h⟩ := Option.bind_eq_some_iff.mp h
        obtain ⟨rest, hr, rfl⟩ := Option.map_eq_some_iff.mp h
        exact ⟨p, rest, accessor, next :: steps, rfl, rfl, named, hp, .inr ⟨m', hm', hr⟩⟩
      · simp

theorem field?_of_accessed (h : m.accessed (lower p.1.name) = [p]) :
    m.field? p.1.name = some p.1 := by
  have there : p ∈ m.places := List.mem_of_mem_filter (h ▸ List.mem_singleton_self p)
  have mem : p.1 ∈ m.vars := by
    rw [← map_fst_places]
    exact List.mem_map_of_mem there
  cases found : m.field? p.1.name with
  | none =>
    have other := List.find?_eq_none.mp found p.1 mem
    simp at other
  | some v =>
    have named : v.name = p.1.name := by simpa using List.find?_some found
    have hv := List.mem_of_find?_eq_some found
    rw [← map_fst_places] at hv
    obtain ⟨q, hq, rfl⟩ := List.mem_map.mp hv
    have alone : q ∈ m.accessed (lower p.1.name) :=
      List.mem_filter.mpr ⟨hq, by simp [named]⟩
    rw [h] at alone
    rw [List.mem_singleton.mp alone]

theorem subType_of_embed {v : Variable} (h : embedTarget types v = some m) :
    subType types v = some m := by
  obtain ⟨plain, single, target, ht, hl⟩ := embedTarget_eq_some h
  rw [subType, if_pos (by simp [Variable.singular, plain, single])]
  simp only [messageType, ht, hl]

/-- A path leads to its last field, in the message that it is declared in. -/
theorem place_of_resolve (h : resolve types m steps = some (above ++ [p])) :
    ∃ d, ownerOf types (spelled above) m .empty = some (d, .empty) ∧ d.field? p.1.name = some p.1 := by
  induction above generalizing m steps with
  | nil =>
    obtain ⟨q, rest, accessor, _, same, _, named, accessed, _⟩ := resolve_cons h
    obtain ⟨rfl, _⟩ := List.cons.inj same
    exact ⟨m, rfl, field?_of_accessed (named ▸ accessed)⟩
  | cons q above ih =>
    obtain ⟨q', rest, accessor, steps', same, _, named, accessed, below⟩ := resolve_cons h
    obtain ⟨rfl, rfl⟩ := List.cons.inj same
    rcases below with none_ | ⟨m', embed, below⟩
    · simp at none_
    · obtain ⟨d, place, found⟩ := ih below
      refine ⟨d, ?_, found⟩
      have here : (m.field? q.1.name).bind (subType types) = some m' := by
        rw [field?_of_accessed (named ▸ accessed), Option.bind_some, subType_of_embed embed]
      rw [spelled, List.map_cons, ownerOf, here, Option.bind_some]
      exact place

/-- Each field of a path but the last embeds the message of the next. -/
theorem embed_of_resolve {rest : List Place} (h : resolve types m steps = some (above ++ p :: rest))
    (more : rest ≠ []) : (embedTarget types p.1).isSome := by
  induction above generalizing m steps with
  | nil =>
    obtain ⟨q, rest', _, _, same, _, _, _, below⟩ := resolve_cons h
    obtain ⟨rfl, rfl⟩ := List.cons.inj same
    obtain ⟨m', embed, _⟩ := below.resolve_left more
    rw [embed, Option.isSome_some]
  | cons q above ih =>
    obtain ⟨q', rest', _, _, same, _, _, _, below⟩ := resolve_cons h
    obtain ⟨rfl, rfl⟩ := List.cons.inj same
    rcases below with none_ | ⟨m', _, below⟩
    · simp at none_
    · exact ih below

/-- Paths that are spelled alike are the same as far as they go. -/
theorem prefix_of_spelled (h : resolve types m steps = some path)
    (h' : resolve types m steps' = some path') (start : spelled path <+: spelled path') :
    path <+: path' := by
  induction path generalizing m steps steps' path' with
  | nil => exact List.nil_prefix
  | cons p path ih =>
    obtain ⟨_, _, accessor, _, same, _, named, accessed, below⟩ := resolve_cons h
    obtain ⟨rfl, rfl⟩ := List.cons.inj same
    obtain ⟨q, rest', accessor', _, rfl, _, named', accessed', below'⟩ := resolve_cons h'
    have both : p.1.name = q.1.name ∧ spelled path <+: spelled rest' := List.cons_prefix_cons.mp start
    obtain ⟨same, later⟩ := both
    have one : accessor = accessor' := by rw [← named, ← named', same]
    rw [one, accessed'] at accessed
    obtain rfl : q = p := List.singleton_inj.mp accessed
    apply List.cons_prefix_cons.mpr
    refine ⟨rfl, ?_⟩
    rcases below with rfl | ⟨m', embed, below⟩
    · exact List.nil_prefix
    · rcases below' with rfl | ⟨m'', embed', below'⟩
      · have none_ : path = [] := by simpa [spelled] using later
        exact absurd none_ (resolve_ne_nil below)
      · cases embed.symm.trans embed'
        exact ih below below' later

/-- The path of a field that embeds no message is above that of no other field. -/
theorem eq_of_spelled (h : resolve types m steps = some (above ++ [p]))
    (h' : resolve types m steps' = some path') (leaf : embedTarget types p.1 = none)
    (start : spelled (above ++ [p]) <+: spelled path') : path' = above ++ [p] := by
  obtain ⟨rest, rfl⟩ := prefix_of_spelled h h' start
  rw [List.append_assoc, List.singleton_append] at h'
  by_contra more
  have some_ : rest ≠ [] := fun none_ => more (by rw [none_, List.append_nil])
  have embed := embed_of_resolve h' some_
  rw [leaf] at embed
  cases embed

end Resolve

/-- What a column is for: the presence of an embed, the key of a row of another table, or a value. The
column of a field whose type is declared nowhere is not bound. -/
inductive ColumnSource (types : Types) (v : Variable) (c : Column) : Prop
  | embed (h : (embedTarget types v).isSome) (presence : c.presenceOf ≠ []) (table : c.fkTable = false)
      (phi : c.isPhi = false)
  | table {target : String} {m : Message} (single : v.singular) (type : v.type = .ID target)
      (found : lookupType types target = some (.table, m)) (presence : c.presenceOf = [])
      (table : c.fkTable) (link : c.fkTarget = some target)
  | value (h : isScalarField types v) (presence : c.presenceOf = []) (table : c.fkTable = false)
  | unresolved (h : Unresolved types v) (presence : c.presenceOf = []) (embed : c.embed = [])
      (bindable : c.bindable = false) (table : c.fkTable = false)

section Columns

variable {b : Backend} {types : Types} {v : Variable} {c : Column}

theorem singular_iff : v.singular = true ↔ v.typeMap = [] ∧ .REPETEABLE ∉ v.modifiers := by
  simp [Variable.singular]

theorem flattenVar_source {recur : String → Message → List String → Bool → Flattened} {owner : String}
    {child : Message} {embedPath : List String} {prefixed : Bool} (h : HasColumn types v)
    (hc : c ∈ (flattenVar b types recur owner child embedPath prefixed v).1) : ColumnSource types v c := by
  obtain ⟨plain, single, hs | ⟨target, k, m, ht, hl, hk⟩⟩ := h
  · have value : isScalarField types v := by simp [isScalarField, singular_iff.mpr ⟨plain, single⟩, hs]
    apply ColumnSource.value value
    · cases ht : v.type <;> simp_all [flattenVar, isScalarToken, scalar]
    · cases ht : v.type <;> simp_all [flattenVar, isScalarToken, scalar]
  · cases k with
    | enum =>
      have value : isScalarField types v := by
        simp [isScalarField, singular_iff.mpr ⟨plain, single⟩, isEnumType, ht, hl]
      apply ColumnSource.value value
      · simp_all [flattenVar]
      · simp_all [flattenVar]
    | table =>
      apply ColumnSource.table (singular_iff.mpr ⟨plain, single⟩) ht hl
      · simp_all [flattenVar]
      · simp_all [flattenVar]
      · simp_all [flattenVar]
    | message => exact absurd rfl hk

theorem analyzeVar_source {fuel : Nat} {msg : Message} (h : HasColumn types v ∨ Unresolved types v)
    (hc : c ∈ (analyzeVar b types fuel msg v).1) : ColumnSource types v c := by
  obtain ⟨plain, single, hs | ⟨target, k, m, ht, hl, hk⟩⟩ | h := h
  · have value : isScalarField types v := by simp [isScalarField, singular_iff.mpr ⟨plain, single⟩, hs]
    apply ColumnSource.value value
    · cases ht : v.type <;> simp_all [analyzeVar, isScalarToken, scalar]
    · cases ht : v.type <;> simp_all [analyzeVar, isScalarToken, scalar]
  · cases k with
    | enum =>
      have value : isScalarField types v := by
        simp [isScalarField, singular_iff.mpr ⟨plain, single⟩, isEnumType, ht, hl]
      apply ColumnSource.value value
      · simp_all [analyzeVar]
      · simp_all [analyzeVar]
    | table =>
      apply ColumnSource.table (singular_iff.mpr ⟨plain, single⟩) ht hl
      · simp_all [analyzeVar]
      · simp_all [analyzeVar]
      · simp_all [analyzeVar]
    | message => exact absurd rfl hk
  · obtain ⟨plain, single, target, ht, hl⟩ := h
    apply ColumnSource.unresolved ⟨plain, single, target, ht, hl⟩
    · simp_all [analyzeVar]
    · simp_all [analyzeVar]
    · simp_all [analyzeVar]
    · simp_all [analyzeVar]

/-- Each column that `_flatten` makes for an embed is for the last field of its path. -/
theorem emittedIn_source {fuel : Nat} {owner : String} {m : Message} {embedPath : List String}
    {prefixed : Bool} {e : Emitted} (he : e ∈ emittedIn b types fuel owner m embedPath prefixed)
    (hc : c ∈ e.columns) : ∃ above p, e.path = above ++ [p] ∧ ColumnSource types p.1 c := by
  induction fuel generalizing owner m embedPath e with
  | zero => cases he
  | succ fuel ih =>
    rw [emittedIn] at he
    obtain ⟨p, hp, he⟩ := List.mem_flatMap.mp he
    cases ht : embedTarget types p.1 with
    | none =>
      rw [ht, Option.elim_none, emitLeaf, List.mem_singleton] at he
      subst he
      have column : HasColumn types p.1 := by
        by_contra hn
        simp [flattenVar_of_neither hn ht] at hc
      exact ⟨[], p, rfl, flattenVar_source column hc⟩
    | some target =>
      simp only [ht, Option.elim_some, emitEmbed] at he
      rcases List.mem_cons.mp he with rfl | he
      · cases prefixed with
        | false => cases hc
        | true =>
          simp only [↓reduceIte, List.mem_singleton] at hc
          subst hc
          refine ⟨[], p, rfl, .embed (by rw [ht, Option.isSome_some]) ?_ rfl rfl⟩
          simp [presenceColumn]
      · obtain ⟨e', he', rfl⟩ := List.mem_map.mp he
        obtain ⟨above, q, path, source⟩ := ih he' hc
        refine ⟨p :: above, q, ?_, source⟩
        rw [Emitted.under, path]
        rfl

theorem emitted_source {fuel : Nat} {msg : Message} {e : Emitted} (he : e ∈ emitted b types fuel msg)
    (hc : c ∈ e.columns) : ∃ above p, e.path = above ++ [p] ∧ ColumnSource types p.1 c ∧
      (c.presenceOf = [] → c.embed = [] → above = [] ∧ c.name = p.1.name) := by
  rw [emitted] at he
  obtain ⟨p, hp, he⟩ := List.mem_flatMap.mp he
  cases ht : embedTarget types p.1 with
  | none =>
    rw [ht, Option.elim_none, emitLeaf, List.mem_singleton] at he
    subst he
    have stored : HasColumn types p.1 ∨ Unresolved types p.1 := by
      by_contra hn
      obtain ⟨hcol, hun⟩ := not_or.mp hn
      simp [analyzeVar_of_neither hcol hun ht] at hc
    obtain ⟨_, _, name⟩ := analyzeVar_column stored hc
    exact ⟨[], p, rfl, analyzeVar_source stored hc, fun _ _ => ⟨rfl, name⟩⟩
  | some target =>
    simp only [ht, Option.elim_some, emitEmbed] at he
    rcases List.mem_cons.mp he with rfl | he
    · cases List.mem_singleton.mp hc
      refine ⟨[], p, rfl, .embed (by rw [ht, Option.isSome_some]) ?_ rfl rfl, fun none_ _ => ?_⟩
      · simp [presenceColumn]
      · cases none_
    · obtain ⟨e', he', rfl⟩ := List.mem_map.mp he
      obtain ⟨above, q, path, source⟩ := emittedIn_source he' hc
      refine ⟨p :: above, q, ?_, source, fun presence embed => ?_⟩
      · rw [Emitted.under, path]
        rfl
      -- a column below an embed is reached through it
      · have inner := emittedIn_columnAt (by simp) he' hc
        have access := inner.access rfl
        rw [Column.accessPath, presence, embed] at access
        have both : lower c.name = lower p.1.name ∧ accessors e'.path = [] := by simpa using access
        obtain ⟨_, below⟩ := both
        rw [path] at below
        simp [accessors] at below

end Columns

end Harpia
