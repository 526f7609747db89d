import Harpia.DaoReadRows
import Harpia.Lib.Zip

namespace Harpia

open Text Sqlite Proto

/-- The row reads what an `INSERT` gave it. -/
def Holds (t : Table) (entry : Entry) (r : Row) : Prop := ∀ e ∈ entry, t.lookup r e.1 = e.2

/-- What a child table stores of one element. -/
def ElementStored (S : Schema) (child : DaoChild) (path : List Step) (name : String) : Prop :=
  match child.kind with
  | .composed columns => path = [] ∧ ∃ col ∈ columns, col.path.field = name
  | .repeated (some target) => ∃ d, daoClass S target = some d ∧ StoredAt S d path name
  | _ => False

/-- The fields that a child table is for have been read. -/
structure ChildKept (S : Schema) (msg out : Msg) (child : DaoChild) : Prop where
  own : msg.KeptAt out (child.path.owner.map .field) child.path.field
  below : ∀ i path name, ElementStored S child path name →
    msg.KeptAt out (child.path.owner.map .field ++ .element child.path.field i :: path) name

theorem ChildKept.mono {S : Schema} {msg out out' : Msg} {child : DaoChild}
    (h : ChildKept S msg out child) (grows : out.Within out') : ChildKept S msg out' child :=
  ⟨h.own.mono grows, fun i path name stored => (h.below i path name stored).mono grows⟩

section Lists

theorem mapM_of_forall₂ {α β γ : Type} {f : β → Option γ} {P : α → γ → Prop} {xs : List α}
    {ys : List β} (h : List.Forall₂ (fun x y => ∃ z, f y = some z ∧ P x z) xs ys) :
    ∃ zs, ys.mapM f = some zs ∧ List.Forall₂ P xs zs := by
  induction h with
  | nil => exact ⟨[], rfl, .nil⟩
  | cons first _ ih =>
    obtain ⟨z, hz, related⟩ := first
    obtain ⟨zs, hzs, all⟩ := ih
    refine ⟨z :: zs, ?_, .cons related all⟩
    rw [List.mapM_cons, hz, Option.bind_eq_bind, Option.bind_some, hzs]
    rfl

theorem forall₂_trans {α β γ : Type} {P : α → β → Prop} {Q : β → γ → Prop} {xs : List α}
    {ys : List β} {zs : List γ} (h : List.Forall₂ P xs ys) (h' : List.Forall₂ Q ys zs) :
    List.Forall₂ (fun x z => ∃ y, P x y ∧ Q y z) xs zs := by
  induction h generalizing zs with
  | nil =>
    cases h'
    exact .nil
  | cons first _ ih =>
    cases h' with
    | cons first' rest => exact .cons ⟨_, first, first'⟩ (ih rest)

/-- A list of numbered items, without the numbers. -/
theorem forall₂_zipIdx {α β : Type} {P : α → β → Prop} {xs : List α} {ys : List β}
    (h : List.Forall₂ (fun e y => P e.1 y) xs.zipIdx ys) : List.Forall₂ P xs ys := by
  have mapped : List.Forall₂ P (xs.zipIdx.map Prod.fst) ys := List.forall₂_map_left_iff.mpr h
  rwa [List.zipIdx_map_fst] at mapped

end Lists

section Rows

variable {R : ReadEnv} {t : Table} {rows : List Row}

/-- Rows numbered from 0 on are in the order that `ORDER BY ordinal` gives them. -/
theorem sorted_rows {α : Type} {items : List α}
    (numbered : List.Forall₂ (fun e r => t.lookup r "ordinal" = .int e.2) items.zipIdx rows) :
    (R.scan rows).mergeSort (fun r r' => R.order (t.lookup r "ordinal") (t.lookup r' "ordinal")) =
      rows := by
  have at_ : ∀ i (hi : i < rows.length), t.lookup rows[i] "ordinal" = .int i := by
    intro i hi
    have hi' : i < items.zipIdx.length := by rw [numbered.length_eq]; exact hi
    have there := numbered.get hi' hi
    simpa using there
  apply List.Perm.eq_of_pairwise
  case le => exact fun r r' => R.order (t.lookup r "ordinal") (t.lookup r' "ordinal") = true
  · intro a b ha hb le le'
    have ha' : a ∈ rows := (R.scan_perm rows).subset ((List.mergeSort_perm _ _).subset ha)
    obtain ⟨i, hi, rfl⟩ := List.mem_iff_getElem.mp ha'
    obtain ⟨j, hj, rfl⟩ := List.mem_iff_getElem.mp hb
    rw [at_ i hi, at_ j hj, R.order_int, decide_eq_true_eq] at le
    rw [at_ i hi, at_ j hj, R.order_int, decide_eq_true_eq] at le'
    have same : i = j := by omega
    subst same
    rfl
  · apply List.pairwise_mergeSort
    · exact fun a b c => R.order_trans (t.lookup a _) (t.lookup b _) (t.lookup c _)
    · exact fun a b => R.order_total (t.lookup a _) (t.lookup b _)
  · rw [List.pairwise_iff_getElem]
    intro i j hi hj lt
    rw [at_ i hi, at_ j hj, R.order_int, decide_eq_true_eq]
    omega
  · exact (List.mergeSort_perm _ _).trans (R.scan_perm rows)

end Rows

section Fields

variable {types : Types} {d : Message} {m : Msg} {v : Variable} {name : String}

theorem Allowed.of_list {c : Content Msg} (h : Allowed types v c) (rep : .REPETEABLE ∈ v.modifiers)
    (typeMap : v.typeMap = []) (scalar : isScalarToken v.type || isEnumType types v) :
    ∃ items, c = .list items ∧ ∀ x ∈ items, Scalar.exact v.type x := by
  have many : v.singular = false := by simp [Variable.singular, rep]
  cases c with
  | scalar x => simp [Allowed, isScalarField, many] at h
  | map entries => exact absurd typeMap h.1
  | list items => exact ⟨items, rfl, h.2.2.2⟩
  | sub o => simp [Allowed, subType, many] at h
  | elements ms =>
    have message := h.2.2
    rw [messageType_of_scalar scalar] at message
    cases message

theorem Allowed.of_elements {c : Content Msg} (h : Allowed types v c) (typeMap : v.typeMap = [])
    (rep : .REPETEABLE ∈ v.modifiers) (message : (messageType types v).isSome) :
    ∃ ms, c = .elements ms := by
  have many : v.singular = false := by simp [Variable.singular, rep]
  cases c with
  | scalar x => simp [Allowed, isScalarField, many] at h
  | map entries => exact absurd typeMap h.1
  | list items =>
    rw [messageType_of_scalar h.2.2.1] at message
    cases message
  | sub o => simp [Allowed, subType, many] at h
  | elements ms => exact ⟨ms, rfl⟩

theorem Allowed.of_map {c : Content Msg} (h : Allowed types v c) (typeMap : v.typeMap ≠ []) :
    ∃ entries, c = .map entries ∧ ∀ e ∈ entries.entries,
      (∀ type ∈ v.typeMap[0]?, Scalar.exact type e.1) ∧
        ∀ type ∈ v.typeMap[1]?, Scalar.exact type e.2 := by
  have map_ : v.singular = false := by simp [Variable.singular, typeMap]
  cases c with
  | scalar x => simp [Allowed, isScalarField, map_] at h
  | map entries => exact ⟨entries, rfl, h.2⟩
  | list items => exact absurd h.1 typeMap
  | sub o => simp [Allowed, subType, map_] at h
  | elements ms => exact absurd h.1 typeMap

theorem at?_of_get? {path : List String} {c : Content Msg} (h : (m.inner path).get? name = some c) :
    (m.at? path).isSome := by
  cases hp : m.at? path with
  | none => simp [Msg.inner, hp] at h
  | some o => rfl

end Fields

section Kinds

variable {R : ReadEnv} {t : Table} {rows : List Row} {m o : Msg} {field : Variable} {name : String}
  (h : o.Within m) (own : ∀ c, m.get? name = some c → Allowed R.schema.types field c)
  (hname : field.name = name)

include h own hname

omit h in
theorem readRepeated_fills (typeMap : field.typeMap = []) (rep : .REPETEABLE ∈ field.modifiers)
    (scalar : isScalarToken field.type || isEnumType R.schema.types field)
    (fresh : o.list name = []) (some_ : m.list name ≠ [])
    (stored : List.Forall₂ (fun x r => t.lookup r "value" = toDb x) (m.list name) rows) :
    readRepeated R t rows field o = some (o.set name (m.get? name)) := by
  cases hc : m.get? name with
  | none => simp [Msg.list, hc] at some_
  | some c =>
    obtain ⟨items, rfl, exact_⟩ := (own c hc).of_list rep typeMap scalar
    have items_ : m.list name = items := by simp [Msg.list, hc]
    rw [items_] at stored
    have each : List.Forall₂ (fun x r => ∃ y,
        (fromDb R field.type (t.lookup r "value")).bind (kept R field.type) = some y ∧ x = y)
        items rows := by
      refine List.forall₂_iff_get.mpr ⟨stored.length_eq, fun i hi hi' => ?_⟩
      have value := stored.get hi hi'
      refine ⟨_, ?_, rfl⟩
      rw [value]
      exact fromDb_kept (exact_ _ (List.get_mem _ _))
    obtain ⟨ys, read, same⟩ := mapM_of_forall₂ each
    obtain rfl : items = ys := List.forall₂_eq_eq_eq ▸ same
    rw [readRepeated, if_pos ⟨typeMap, rep, scalar⟩, read, Option.map_some, hname, fresh,
      List.nil_append]

/-- The elements of a repeated message are put back, each from its own row. -/
theorem readElements_fills {d : Message} {element : Message → Row → Option Msg}
    {P : Msg → Msg → Prop} (type : elementsType R.toDaoEnv field = some d)
    (fresh : o.elements name = []) (some_ : m.elements name ≠ [])
    (stored : List.Forall₂ (fun c r => ∃ e, element d r = some e ∧ e.Within c ∧ P c e)
      (m.elements name) rows) :
    ∃ es, readElements R rows field element o = some (o.set name (some (.elements es))) ∧
      m.Fills [[name]] o (o.set name (some (.elements es))) ∧
      m.FieldWithin (o.set name (some (.elements es))) name ∧
      List.Forall₂ P (m.elements name) es := by
  cases hc : m.get? name with
  | none => simp [Msg.elements, hc] at some_
  | some c =>
    have kind : field.typeMap = [] ∧ .REPETEABLE ∈ field.modifiers ∧
        messageType R.schema.types field = some d := by
      unfold elementsType at type
      split at type
      next many => exact ⟨many.1, many.2, type⟩
      next => cases type
    obtain ⟨ms, rfl⟩ := (own c hc).of_elements kind.1 kind.2.1 (by rw [kind.2.2, Option.isSome_some])
    have items_ : m.elements name = ms := by simp [Msg.elements, hc]
    rw [items_] at stored
    obtain ⟨es, read, all⟩ := mapM_of_forall₂ stored
    obtain ⟨fills, kept_⟩ := Msg.fills_set_elements h hc fresh (all.imp fun _ _ both => both.1)
    refine ⟨es, ?_, fills, kept_, ?_⟩
    · rw [readElements, type, Option.bind_some, read, Option.map_some, hname, fresh, List.nil_append]
    · rw [items_]
      exact all.imp fun _ _ both => both.2

omit h own hname in
/-- Assigning entries of `entries` one after the other. -/
theorem foldlM_entries {step : Dict Scalar Scalar → Row → Option (Dict Scalar Scalar)}
    {key value : Row → Scalar} {entries d : Dict Scalar Scalar}
    (below : ∀ k x, d.get? k = some x → entries.get? k = some x)
    (each : ∀ r ∈ rows, entries.get? (key r) = some (value r) ∧
      ∀ d, step d r = some (d.set (key r) (value r))) :
    ∃ d', rows.foldlM step d = some d' ∧ (∀ k x, d.get? k = some x → d'.get? k = some x) ∧
      (∀ k x, d'.get? k = some x → entries.get? k = some x) ∧
      ∀ r ∈ rows, d'.get? (key r) = some (value r) := by
  induction rows generalizing d with
  | nil => exact ⟨d, rfl, fun _ _ hx => hx, below, fun r hr => by cases hr⟩
  | cons r rows ih =>
    obtain ⟨there, done⟩ := each r List.mem_cons_self
    have below' : ∀ k x, (d.set (key r) (value r)).get? k = some x → entries.get? k = some x := by
      intro k x hx
      rw [Dict.get?_set] at hx
      split at hx
      next hk => rw [hk, there, hx]
      next => exact below k x hx
    obtain ⟨d', rest, old, new, all⟩ := ih below' fun r' hr' => each r' (List.mem_cons_of_mem _ hr')
    refine ⟨d', ?_, fun k x hx => old k x ?_, new, fun r' hr' => ?_⟩
    · rw [List.foldlM_cons, done]
      exact rest
    · rw [Dict.get?_set]
      split
      next hk =>
        have same := below k x hx
        rw [hk, there] at same
        exact same
      next => exact hx
    · rcases List.mem_cons.mp hr' with rfl | hr'
      · exact old _ _ (by rw [Dict.get?_set, if_pos rfl])
      · exact all r' hr'

/-- The entries of a map are put back, in whatever order its rows come. -/
theorem readMap_fills {keyType valueType : TypeToken} (keys : field.typeMap[0]? = some keyType)
    (values : field.typeMap[1]? = some valueType) {stored : List Row} (perm : rows.Perm stored)
    (some_ : stored ≠ [])
    (held : List.Forall₂ (fun e r => t.lookup r "key" = toDb e.1 ∧ t.lookup r "value" = toDb e.2)
      (m.map name).entries stored) :
    ∃ d, readMap R t rows field o = some (o.set name (some (.map d))) ∧
      m.Fills [[name]] o (o.set name (some (.map d))) ∧
      m.FieldWithin (o.set name (some (.map d))) name := by
  have typeMap : field.typeMap ≠ [] := fun none_ => by simp [none_] at keys
  cases hc : m.get? name with
  | none =>
    have none_ : (m.map name).entries = [] := by
      simp only [Msg.map, hc]
      rfl
    rw [none_] at held
    cases held
    exact absurd rfl some_
  | some c =>
    obtain ⟨entries, rfl, exact_⟩ := (own c hc).of_map typeMap
    have entries_ : m.map name = entries := by simp [Msg.map, hc]
    rw [entries_] at held
    let key : Row → Scalar := fun r =>
      ((fromDb R keyType (t.lookup r "key")).bind (kept R keyType)).getD (.int 0)
    let value : Row → Scalar := fun r =>
      ((fromDb R valueType (t.lookup r "value")).bind (kept R valueType)).getD (.int 0)
    have reads : ∀ e ∈ entries.entries, ∀ r, t.lookup r "key" = toDb e.1 ∧
        t.lookup r "value" = toDb e.2 →
        (fromDb R keyType (t.lookup r "key")).bind (kept R keyType) = some e.1 ∧
          (fromDb R valueType (t.lookup r "value")).bind (kept R valueType) = some e.2 := by
      intro e he r both
      rw [both.1, both.2]
      exact ⟨fromDb_kept ((exact_ e he).1 keyType keys), fromDb_kept ((exact_ e he).2 valueType values)⟩
    have each : ∀ r ∈ rows, entries.get? (key r) = some (value r) ∧
        ∀ d : Dict Scalar Scalar, (((fromDb R keyType (t.lookup r "key")).bind (kept R keyType)).bind
          fun k => ((fromDb R valueType (t.lookup r "value")).bind (kept R valueType)).map fun v =>
            d.set k v) = some (d.set (key r) (value r)) := by
      intro r hr
      obtain ⟨i, hi, rfl⟩ := List.mem_iff_getElem.mp (perm.subset hr)
      have hi' : i < entries.entries.length := by rw [held.length_eq]; exact hi
      have stood := held.get hi' hi
      simp only [List.get_eq_getElem] at stood
      obtain ⟨readKey, readValue⟩ := reads _ (List.getElem_mem hi') _ stood
      refine ⟨?_, fun d => ?_⟩
      · have found := Dict.lookup_eq_some_of_mem entries.nodup_keys (List.getElem_mem hi')
        simp only [key, value]
        rw [readKey, readValue]
        exact found
      · simp only [key, value]
        rw [readKey, readValue]
        rfl
    have field_ := h.field name
    obtain ⟨d, read, old, new, all⟩ := foldlM_entries (d := o.map name)
      (fun k x hx => entries_ ▸ field_.map k x hx) each
    obtain ⟨fills, full⟩ := Msg.fills_set_map h hc old new
    refine ⟨d, ?_, fills, full fun k x hx => ?_⟩
    · rw [readMap, keys, values, Option.bind_some, Option.bind_some, hname, read, Option.map_some]
    · have mem := Dict.mem_of_lookup_eq_some hx
      obtain ⟨r, hr, hk, hv⟩ := exists_of_forall₂ held mem
      obtain ⟨readKey, readValue⟩ := reads _ mem r ⟨hk, hv⟩
      have there := all r (perm.symm.subset hr)
      simp only [key, value] at there
      rw [readKey, readValue] at there
      exact there

end Kinds

section Child

variable {R : ReadEnv} {db : Db} {dao : Dao} {msg out m o : Msg} {child : DaoChild} {key : Value}
  {t : Table} {entries : List Entry} {field : Variable} {name : String}

/-- The field and its elements are in `o` what they are in `m`. -/
structure FieldRead (S : Schema) (child : DaoChild) (m o : Msg) (name : String) : Prop where
  own : m.FieldWithin o name
  below : ∀ i path n, ElementStored S child path n →
    (m.child (.element name i)).KeptAt (o.child (.element name i)) path n

/-- A field without elements, entries or a message. -/
theorem fieldRead_of_bare (own : ∀ c, m.get? name = some c → Allowed R.schema.types field c)
    (many : field.singular = false) (map : (m.map name).entries = []) (list : m.list name = [])
    (elements : m.elements name = []) : FieldRead R.schema child m o name := by
  refine ⟨⟨fun x hx => ?_, fun k x hx => ?_, .inl list, fun hs => ?_, .inl elements⟩,
    fun i path n _ => ?_⟩
  · cases hc : m.get? name with
    | none => simp [Msg.scalar?, hc] at hx
    | some c =>
      have allowed := own c hc
      cases c with
      | scalar y => simp [Allowed, isScalarField, many] at allowed
      | _ => simp [Msg.scalar?, hc] at hx
  · rw [Dict.get?, map] at hx
    cases hx
  · cases hc : m.get? name with
    | none => simp [Msg.sub?, hc] at hs
    | some c =>
      have allowed := own c hc
      cases c with
      | sub y => simp [Allowed, subType, many] at allowed
      | _ => simp [Msg.sub?, hc] at hs
  · have none_ : m.child (.element name i) = .empty := by
      show (m.elements name)[i]?.getD .empty = .empty
      rw [elements, List.getElem?_nil, Option.getD_none]
    rw [none_]
    apply Msg.FieldWithin.of_none
    rw [Msg.under_empty, Msg.get?_empty]

theorem below_of_forall₂ {es : List Msg} (all : List.Forall₂ (fun c e => ∀ path n,
      ElementStored R.schema child path n → c.KeptAt e path n) (m.elements name) es)
    (now : o.elements name = es) (i : Nat) (path : List Step) (n : String)
    (stored : ElementStored R.schema child path n) :
    (m.child (.element name i)).KeptAt (o.child (.element name i)) path n := by
  show ((m.elements name)[i]?.getD .empty).KeptAt ((o.elements name)[i]?.getD .empty) path n
  rw [now]
  by_cases hi : i < (m.elements name).length
  · have hi' : i < es.length := by
      have length := all.length_eq
      omega
    rw [List.getElem?_eq_getElem hi, List.getElem?_eq_getElem hi']
    exact all.get hi hi' path n stored
  · rw [List.getElem?_eq_none (by omega)]
    apply Msg.FieldWithin.of_none
    rw [Option.getD_none, Msg.under_empty, Msg.get?_empty]

section Rows

variable (h : o.Within m) (own : ∀ c, m.get? name = some c → Allowed R.schema.types field c)
  (hname : field.name = name) (some_ : t.select "owner" key ≠ [])

include h own hname some_

theorem mapRows_fill (kind : child.kind = .map) {keyType valueType : TypeToken}
    (keys : field.typeMap[0]? = some keyType) (values : field.typeMap[1]? = some valueType)
    (held : List.Forall₂ (Holds t) ((m.map name).entries.map fun e =>
      [("owner", key), ("key", toDb e.1), ("value", toDb e.2)]) (t.select "owner" key)) :
    ∃ o', readMap R t (childRows R child t key) field o = some o' ∧ m.Fills [[name]] o o' ∧
      FieldRead R.schema child m o' name := by
  have rows : childRows R child t key = R.scan (t.select "owner" key) := by
    simp only [childRows, kind]
  have each : List.Forall₂ (fun e r => t.lookup r "key" = toDb e.1 ∧ t.lookup r "value" = toDb e.2)
      (m.map name).entries (t.select "owner" key) :=
    (List.forall₂_map_left_iff.mp held).imp fun e r holds =>
      ⟨holds ("key", toDb e.1) (by simp), holds ("value", toDb e.2) (by simp)⟩
  obtain ⟨d, read, fills, kept_⟩ := readMap_fills h own hname keys values (R.scan_perm _) some_ each
  rw [rows]
  refine ⟨_, read, fills, kept_, fun i path n stored => ?_⟩
  rw [ElementStored, kind] at stored
  exact stored.elim

theorem listRows_fill (kind : child.kind = .repeated none) (typeMap : field.typeMap = [])
    (rep : .REPETEABLE ∈ field.modifiers)
    (scalar : isScalarToken field.type || isEnumType R.schema.types field) (fresh : o.list name = [])
    (held : List.Forall₂ (Holds t) ((m.list name).zipIdx.map fun e =>
      [("owner", key), ("ordinal", .int e.2), ("value", toDb e.1)]) (t.select "owner" key)) :
    ∃ o', readRepeated R t (childRows R child t key) field o = some o' ∧ m.Fills [[name]] o o' ∧
      FieldRead R.schema child m o' name := by
  have each := List.forall₂_map_left_iff.mp held
  have rows : childRows R child t key = t.select "owner" key := by
    simp only [childRows, kind]
    apply sorted_rows
    exact each.imp fun e r holds => holds ("ordinal", .int e.2) (by simp)
  have stored : List.Forall₂ (fun x r => t.lookup r "value" = toDb x) (m.list name)
      (t.select "owner" key) := by
    apply forall₂_zipIdx
    exact each.imp fun e r holds => holds ("value", toDb e.1) (by simp)
  have items : m.list name ≠ [] := fun none_ => by
    rw [none_] at stored
    cases hr : t.select "owner" key with
    | nil => exact some_ hr
    | cons r rest =>
      rw [hr] at stored
      cases stored
  have read := readRepeated_fills own hname typeMap rep scalar fresh items stored
  obtain ⟨fills, kept_, _⟩ : Msg.Fills _ [[name]] _ _ ∧ _ := Msg.fills_copy h
  rw [rows]
  refine ⟨_, read, fills, kept_, fun i path n stored => ?_⟩
  rw [ElementStored, kind] at stored
  exact stored.elim

theorem elementRows_fill (ordered : child.kind ≠ .map) {d : Message}
    {element : Message → Row → Option Msg} (type : elementsType R.toDaoEnv field = some d)
    (fresh : o.elements name = [])
    (numbered : List.Forall₂ (fun e r => t.lookup r "ordinal" = .int e.2)
      (m.elements name).zipIdx (t.select "owner" key))
    (each : List.Forall₂ (fun c r => ∃ e, element d r = some e ∧ e.Within c ∧
      ∀ path n, ElementStored R.schema child path n → c.KeptAt e path n) (m.elements name)
        (t.select "owner" key)) :
    ∃ o', readElements R (childRows R child t key) field element o = some o' ∧
      m.Fills [[name]] o o' ∧ FieldRead R.schema child m o' name := by
  have rows : childRows R child t key = t.select "owner" key := by
    unfold childRows
    split
    next kind => exact absurd kind ordered
    next => exact sorted_rows numbered
  have items : m.elements name ≠ [] := fun none_ => by
    rw [none_] at each
    cases hr : t.select "owner" key with
    | nil => exact some_ hr
    | cons r rest =>
      rw [hr] at each
      cases each
  obtain ⟨es, read, fills, kept_, all⟩ := readElements_fills h own hname type fresh items each
  rw [rows]
  refine ⟨_, read, fills, kept_, below_of_forall₂ all ?_⟩
  simp [Msg.elements]

theorem linkRows_fill {target : String} {d : Message} (kind : child.kind = .repeated (some target))
    (type : elementsType R.toDaoEnv field = some d)
    (fresh : o.elements name = []) {recur : String → Value → Msg → Option Msg}
    (links : linkEntries R.toDaoEnv key field m = some entries)
    (held : List.Forall₂ (Holds t) entries (t.select "owner" key))
    (nested : ∀ c ∈ m.elements name, ∃ d', daoClass R.schema target = some d' ∧ ∀ k,
      bindValue R.schema.types d c pk = some k →
        ∃ e, recur target k .empty = some e ∧ Restores R.schema d' c .empty e) :
    ∃ o', readElements R (childRows R child t key) field
        (fun _ r => recur target (t.lookup r "value") .empty) o = some o' ∧
      m.Fills [[name]] o o' ∧ FieldRead R.schema child m o' name := by
  rw [linkEntries, type, Option.bind_some, hname] at links
  have rows := forall₂_trans (List.forall₂_of_mapM links) held
  have each : List.Forall₂ (fun e r => t.lookup r "ordinal" = .int e.2 ∧
      bindValue R.schema.types d e.1 pk = some (t.lookup r "value"))
      (m.elements name).zipIdx (t.select "owner" key) := by
    apply rows.imp
    · intro e r stored
      obtain ⟨entry, bound, holds⟩ := stored
      obtain ⟨k, hk, rfl⟩ := Option.map_eq_some_iff.mp bound
      have value : t.lookup r "value" = k := holds ("value", k) (by simp)
      exact ⟨holds ("ordinal", .int e.2) (by simp), by rw [value]; exact hk⟩
  apply elementRows_fill h own hname some_ (by rw [kind]; exact DaoChildKind.noConfusion) type fresh
  · exact each.imp fun e r both => both.1
  · have values : List.Forall₂ (fun c r => bindValue R.schema.types d c pk =
        some (t.lookup r "value")) (m.elements name) (t.select "owner" key) :=
      forall₂_zipIdx (each.imp fun e r both => both.2)
    have members := (List.forall₂_and_left (p := (· ∈ m.elements name)) _ _).mpr
      ⟨fun c hc => hc, values⟩
    apply members.imp
    intro c r both
    obtain ⟨d', class_, below⟩ := nested c both.1
    obtain ⟨e, read, restores⟩ := below _ both.2
    refine ⟨e, read, restores.fills.within, fun path n stored => ?_⟩
    rw [ElementStored, kind] at stored
    obtain ⟨d'', class', below⟩ := stored
    cases class_.symm.trans class'
    exact restores.kept path n below

omit h own hname some_ in
theorem foldlM_columns {d : Message} {c e : Msg} {r : Row} {columns : List DaoColumn}
    (wt : WellTyped R.schema.types d c) (h : e.Within c)
    (plain : ∀ col ∈ columns, col.path.owner = [] ∧ col.presence = false ∧ col.fk = none)
    (bound : ∀ col ∈ columns, columnValue R.schema.types d c col = some (t.lookup r col.name)) :
    ∃ e', columns.foldlM (fun e col => setColumn R d e col (t.lookup r col.name)) e = some e' ∧
      e.Within e' ∧ e'.Within c ∧ ∀ col ∈ columns, c.KeptAt e' [] col.path.field := by
  induction columns generalizing e with
  | nil => exact ⟨e, rfl, .refl e, h, fun col hcol => by cases hcol⟩
  | cons col columns ih =>
    obtain ⟨top, presence, fk⟩ := plain col List.mem_cons_self
    obtain ⟨mid, first, fills, kept_⟩ := setColumn_fills wt h presence fk (by rw [top]; rfl)
      (bound col List.mem_cons_self)
    obtain ⟨e', rest, grows, within, all⟩ := ih fills.within
      (fun col' hcol => plain col' (List.mem_cons_of_mem _ hcol))
      fun col' hcol => bound col' (List.mem_cons_of_mem _ hcol)
    refine ⟨e', ?_, fills.grows.trans grows, within, fun col' hcol => ?_⟩
    · rw [List.foldlM_cons, first]
      exact rest
    · rcases List.mem_cons.mp hcol with rfl | hcol
      · rw [top] at kept_
        exact kept_.mono grows
      · exact all col' hcol

theorem composedRows_fill {d : Message} {columns : List DaoColumn}
    (kind : child.kind = .composed columns) (type : elementsType R.toDaoEnv field = some d)
    (fresh : o.elements name = [])
    (plain : ∀ col ∈ columns, col.path.owner = [] ∧ col.presence = false ∧ col.fk = none)
    (wt : ∀ c ∈ m.elements name, WellTyped R.schema.types d c)
    (bound : (m.elements name).zipIdx.mapM (fun e =>
      (columns.mapM fun col => (columnValue R.schema.types d e.1 col).map fun v => (col.name, v)).map
        fun cells => ("owner", key) :: ("ordinal", .int e.2) :: cells) = some entries)
    (held : List.Forall₂ (Holds t) entries (t.select "owner" key)) :
    ∃ o', readElements R (childRows R child t key) field (fun d r => columns.foldlM (fun e col =>
        setColumn R d e col (t.lookup r col.name)) .empty) o = some o' ∧
      m.Fills [[name]] o o' ∧ FieldRead R.schema child m o' name := by
  have rows := forall₂_trans (List.forall₂_of_mapM bound) held
  have each : List.Forall₂ (fun e r => t.lookup r "ordinal" = .int e.2 ∧ ∀ col ∈ columns,
      columnValue R.schema.types d e.1 col = some (t.lookup r col.name))
      (m.elements name).zipIdx (t.select "owner" key) :=
    rows.imp fun e r ⟨entry, bound, holds⟩ => by
      obtain ⟨cells, hcells, rfl⟩ := Option.map_eq_some_iff.mp bound
      refine ⟨holds ("ordinal", .int e.2) (by simp), fun col hcol => ?_⟩
      obtain ⟨cell, hcell, value⟩ := exists_of_mapM hcells hcol
      obtain ⟨v, hv, rfl⟩ := Option.map_eq_some_iff.mp value
      have stands := holds (col.name, v) (List.mem_cons_of_mem _ (List.mem_cons_of_mem _ hcell))
      rw [hv]
      exact congrArg some stands.symm
  apply elementRows_fill h own hname some_ (by rw [kind]; exact DaoChildKind.noConfusion) type fresh
  · exact each.imp fun e r both => both.1
  · have values : List.Forall₂ (fun c r => ∀ col ∈ columns,
        columnValue R.schema.types d c col = some (t.lookup r col.name)) (m.elements name)
        (t.select "owner" key) := forall₂_zipIdx (each.imp fun e r both => both.2)
    have members := (List.forall₂_and_left (p := (· ∈ m.elements name)) _ _).mpr
      ⟨fun c hc => hc, values⟩
    refine members.imp fun c r ⟨hc, bound⟩ => ?_
    obtain ⟨e, read, _, within, all⟩ := foldlM_columns (wt c hc) (Msg.within_empty c) plain bound
    refine ⟨e, read, within, fun path n stored => ?_⟩
    rw [ElementStored, kind] at stored
    obtain ⟨rfl, col, hcol, rfl⟩ := stored
    exact all col hcol

end Rows

end Child

section Read

variable {R : ReadEnv} {db : Db} {dao : Dao} {msg out m : Msg} {child : DaoChild} {key : Value}
  {t : Table} {entries : List Entry} {field : Variable} {name : String}

theorem childRows_eq_nil (child : DaoChild) (t : Table) (owner : Value) :
    childRows R child t owner = [] ↔ t.select "owner" owner = [] := by
  have same : (childRows R child t owner).Perm (t.select "owner" owner) := by
    unfold childRows
    split
    · exact R.scan_perm _
    · exact (List.mergeSort_perm _ _).trans (R.scan_perm _)
  rw [← List.length_eq_zero_iff, ← List.length_eq_zero_iff, same.length_eq]

/-- A field in a child table: nothing is read where it has no row. -/
theorem change_fills (h : out.Within msg) {change : Msg → Option Msg} {rows : List Row}
    (none_ : rows = [] →
      FieldRead R.schema child (msg.inner child.path.owner) (out.inner child.path.owner) child.path.field)
    (some_ : rows ≠ [] → (msg.inner child.path.owner).get? child.path.field ≠ none ∧
      ∃ o, change (out.inner child.path.owner) = some o ∧
        (msg.inner child.path.owner).Fills [[child.path.field]] (out.inner child.path.owner) o ∧
        FieldRead R.schema child (msg.inner child.path.owner) o child.path.field) :
    ∃ out', (if rows = [] then some out else out.modify change child.path.owner) = some out' ∧
      msg.Fills [child.path.steps] out out' ∧ ChildKept R.schema msg out' child := by
  have kept_ : ∀ out' : Msg, FieldRead R.schema child (msg.inner child.path.owner)
      (out'.inner child.path.owner) child.path.field → ChildKept R.schema msg out' child := by
    intro out' read
    refine ⟨?_, fun i path n stored => ?_⟩
    · rw [Msg.KeptAt, Msg.under_fields, Msg.under_fields]
      exact read.own
    · have below := read.below i path n stored
      rw [Msg.KeptAt, Msg.under_append, Msg.under_append, Msg.under_fields, Msg.under_fields]
      exact below
  by_cases hr : rows = []
  · rw [if_pos hr]
    exact ⟨out, rfl, .refl _ h, kept_ out (none_ hr)⟩
  · rw [if_neg hr]
    obtain ⟨held, o, done, fills, read⟩ := some_ hr
    have there : (msg.at? child.path.owner).isSome := by
      obtain ⟨c, hc⟩ := Option.ne_none_iff_exists'.mp held
      exact at?_of_get? hc
    obtain ⟨out', changed, fills', inner⟩ := Msg.fills_at h there done fills
    refine ⟨out', changed, fills', kept_ out' ?_⟩
    rw [inner]
    exact read

/-- What no row stands for is not in the field. -/
theorem rows_of_content {rows : List Row} (held : List.Forall₂ (Holds t) entries rows)
    (own : ∀ c, m.get? name = some c → Allowed R.schema.types field c) (many : field.singular = false)
    (bare : entries = [] ↔
      (m.map name).entries = [] ∧ m.list name = [] ∧ m.elements name = []) {o : Msg} :
    (rows = [] → FieldRead R.schema child m o name) ∧ (rows ≠ [] → m.get? name ≠ none) := by
  refine ⟨fun none_ => ?_, fun some_ none_ => some_ ?_⟩
  · rw [none_] at held
    obtain ⟨map, list, elements⟩ := bare.mp (by cases held; rfl)
    exact fieldRead_of_bare own many map list elements
  · have empty_ : entries = [] := bare.mpr
      ⟨by simp only [Msg.map, none_]; rfl, by simp [Msg.list, none_], by simp [Msg.elements, none_]⟩
    rw [empty_] at held
    cases held
    rfl

theorem bare_map (own : ∀ c, m.get? name = some c → Allowed R.schema.types field c)
    (typeMap : field.typeMap ≠ []) : field.singular = false ∧ ((m.map name).entries = [] ↔
      (m.map name).entries = [] ∧ m.list name = [] ∧ m.elements name = []) := by
  refine ⟨by simp [Variable.singular, typeMap], fun none_ => ⟨none_, ?_⟩, fun all => all.1⟩
  cases hc : m.get? name with
  | none => simp [Msg.list, Msg.elements, hc]
  | some c =>
    obtain ⟨entries, rfl, _⟩ := (own c hc).of_map typeMap
    simp [Msg.list, Msg.elements, hc]

theorem bare_list (own : ∀ c, m.get? name = some c → Allowed R.schema.types field c)
    (typeMap : field.typeMap = []) (rep : .REPETEABLE ∈ field.modifiers)
    (scalar : isScalarToken field.type || isEnumType R.schema.types field) :
    field.singular = false ∧ (m.list name = [] ↔
      (m.map name).entries = [] ∧ m.list name = [] ∧ m.elements name = []) := by
  refine ⟨by simp [Variable.singular, rep], fun none_ => ⟨?_, none_, ?_⟩, fun all => all.2.1⟩
  · cases hc : m.get? name with
    | none =>
      simp only [Msg.map, hc]
      rfl
    | some c =>
      obtain ⟨items, rfl, _⟩ := (own c hc).of_list rep typeMap scalar
      simp only [Msg.map, hc]
      rfl
  · cases hc : m.get? name with
    | none => simp [Msg.elements, hc]
    | some c =>
      obtain ⟨items, rfl, _⟩ := (own c hc).of_list rep typeMap scalar
      simp [Msg.elements, hc]

/-- A field that holds elements holds neither entries nor values. -/
theorem bare_elements (own : ∀ c, m.get? name = some c → Allowed R.schema.types field c)
    {d : Message} (type : elementsType R.toDaoEnv field = some d) :
    field.singular = false ∧ messageType R.schema.types field = some d ∧
      (m.elements name = [] ↔
        (m.map name).entries = [] ∧ m.list name = [] ∧ m.elements name = []) := by
  unfold elementsType at type
  split at type
  next many =>
    refine ⟨by simp [Variable.singular, many.2], type, fun none_ => ⟨?_, ?_, none_⟩, fun all => all.2.2⟩
    · cases hc : m.get? name with
      | none =>
        simp only [Msg.map, hc]
        rfl
      | some c =>
        obtain ⟨ms, rfl⟩ := (own c hc).of_elements many.1 many.2 (by rw [type, Option.isSome_some])
        simp only [Msg.map, hc]
        rfl
    · cases hc : m.get? name with
      | none => simp [Msg.list, hc]
      | some c =>
        obtain ⟨ms, rfl⟩ := (own c hc).of_elements many.1 many.2 (by rw [type, Option.isSome_some])
        simp [Msg.list, hc]
  next => cases type

theorem length_of_mapM {α β : Type} {f : α → Option β} {l : List α} {ys : List β}
    (h : l.mapM f = some ys) : ys = [] ↔ l = [] := by
  have length := (List.forall₂_of_mapM h).length_eq
  rw [← List.length_eq_zero_iff, ← List.length_eq_zero_iff, length]

theorem readChild_fills (readable : dao.Readable R.schema) (hc : child ∈ dao.children)
    (wt : WellTyped R.schema.types dao.message msg) (h : out.Within msg)
    (fresh : out.FreshAt child.path.steps) (ht : db.get? child.table = some t)
    (bound : childTableEntries R.toDaoEnv (columnValue R.schema.types) dao key msg child = some entries)
    (held : List.Forall₂ (Holds t) entries (t.select "owner" key))
    {recur : String → Value → Msg → Option Msg}
    (nested : ∀ target, child.kind = .repeated (some target) →
      ∀ c ∈ (msg.inner child.path.owner).elements child.path.field,
        ∃ d, daoClass R.schema target = some d ∧ ∀ k, bindValue R.schema.types d.message c pk = some k →
          ∃ e, recur target k .empty = some e ∧ Restores R.schema d c .empty e) :
    ∃ out', readChild R db dao recur key out child = some out' ∧
      msg.Fills [child.path.steps] out out' ∧ ChildKept R.schema msg out' child := by
  obtain ⟨base, place, bound⟩ := Option.bind_eq_some_iff.mp bound
  rw [ownerOf_eq] at place
  obtain ⟨owner, empty, rfl⟩ := Option.map_eq_some_iff.mp place
  obtain ⟨field, found, bound⟩ := Option.bind_eq_some_iff.mp bound
  have hname := field?_name found
  have at_ : FieldAt R.schema.types dao.message child.path field := ⟨owner, empty, found⟩
  have own : ∀ c, (msg.inner child.path.owner).get? child.path.field = some c →
      Allowed R.schema.types field c := fun c held => (wt.inner empty).own found held
  have inner := h.inner child.path.owner
  obtain ⟨noList, noElements⟩ := fresh.field
  have rows : childRows R child t key ≠ [] → t.select "owner" key ≠ [] := fun some_ none_ =>
    some_ ((childRows_eq_nil child t key).mpr none_)
  have none_ : childRows R child t key = [] → t.select "owner" key = [] :=
    (childRows_eq_nil child t key).mp
  rw [readChild, ownerOf_eq, empty, Option.map_some, Option.bind_some, found, Option.bind_some, ht,
    Option.bind_some]
  have facts : field.singular = false ∧ (entries = [] ↔
      ((msg.inner child.path.owner).map child.path.field).entries = [] ∧
        (msg.inner child.path.owner).list child.path.field = [] ∧
        (msg.inner child.path.owner).elements child.path.field = []) := by
    split at bound
    next kind =>
      obtain ⟨keyType, valueType, keys, _⟩ := readable.maps child hc kind field at_
      cases bound
      rw [List.map_eq_nil_iff, hname]
      exact bare_map own fun no => by simp [no] at keys
    next kind =>
      obtain ⟨typeMap, rep, scalar⟩ := readable.lists child hc kind field at_
      have items : iterate R.toDaoEnv field (msg.inner child.path.owner) =
          some ((msg.inner child.path.owner).list child.path.field) := by
        rw [iterate, if_neg (by simp [typeMap]), if_pos rep, if_pos scalar, hname]
      rw [items, Option.map_some] at bound
      cases bound
      rw [List.map_eq_nil_iff, List.zipIdx_eq_nil_iff]
      exact bare_list own typeMap rep scalar
    next target kind =>
      obtain ⟨d, type, bound⟩ := Option.bind_eq_some_iff.mp bound
      rw [length_of_mapM bound, List.zipIdx_eq_nil_iff, hname]
      obtain ⟨single, _, same⟩ := bare_elements own type
      exact ⟨single, same⟩
    next columns kind =>
      obtain ⟨d, type, bound⟩ := Option.bind_eq_some_iff.mp bound
      rw [length_of_mapM bound, List.zipIdx_eq_nil_iff, hname]
      obtain ⟨single, _, same⟩ := bare_elements own type
      exact ⟨single, same⟩
  obtain ⟨many, bare⟩ := facts
  obtain ⟨nothing, something⟩ := rows_of_content held own many bare
  apply change_fills h
  · exact fun nil => nothing (none_ nil)
  · intro some_
    replace some_ := rows some_
    refine ⟨something some_, ?_⟩
    cases kind : child.kind with
    | map =>
      obtain ⟨keyType, valueType, keys, values⟩ := readable.maps child hc kind field at_
      simp only [kind, hname, Option.some.injEq] at bound
      subst bound
      exact mapRows_fill inner own hname some_ kind keys values held
    | repeated target =>
      cases target with
      | none =>
        obtain ⟨typeMap, rep, scalar⟩ := readable.lists child hc kind field at_
        have items : iterate R.toDaoEnv field (msg.inner child.path.owner) =
            some ((msg.inner child.path.owner).list child.path.field) := by
          rw [iterate, if_neg (by simp [typeMap]), if_pos rep, if_pos scalar, hname]
        simp only [kind, items, Option.map_some, Option.some.injEq] at bound
        subst bound
        exact listRows_fill inner own hname some_ kind typeMap rep scalar noList held
      | some target =>
        simp only [kind] at bound
        obtain ⟨elem, type, _⟩ := Option.bind_eq_some_iff.mp bound
        have message := (bare_elements own type).2.1
        apply linkRows_fill inner own hname some_ kind type noElements bound held
        intro c hmem
        obtain ⟨d, class_, below⟩ := nested target kind c hmem
        cases (readable.elements child hc target kind field at_ d class_).symm.trans message
        exact ⟨d, class_, below⟩
    | composed columns =>
      simp only [kind, hname] at bound
      obtain ⟨d, type, bound⟩ := Option.bind_eq_some_iff.mp bound
      apply composedRows_fill inner own hname some_ kind type noElements
        (readable.composed child hc columns kind) _ bound held
      intro c hc'
      exact (wt.inner empty).element found (bare_elements own type).2.1 hc'

end Read

end Harpia
