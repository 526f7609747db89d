import Harpia.DaoStored

namespace Harpia

open Text Sqlite Proto

/-- The provider holds the KEK of its active version, a number of 64 bits. -/
structure KeyProvider.Seals (p : KeyProvider) : Prop where
  kek : (p.keks.get? p.active).isSome
  version : p.active < 2 ^ 64

theorem KeyProvider.Seals.encryptField {p : KeyProvider} (h : p.Seals) {dek : Bytes}
    (short : dek.length < 2 ^ 32) (x : Plain .python) :
    ∃ stored, encryptField .python p dek x = some stored := by
  obtain ⟨kek, hk⟩ := Option.isSome_iff_exists.mp h.kek
  have wrapped : p.wrapDek dek = some ⟨p.active, Bytes.xorWith dek kek⟩ :=
    KeyProvider.wrapDek_eq_some.mpr ⟨kek, hk, rfl⟩
  have fits : ¬ (Lang.python = .python ∧ (2 ^ 64 ≤ p.active ∨
      2 ^ 32 ≤ (Bytes.xorWith dek kek).length)) := by
    have version := h.version
    rw [Bytes.length_xorWith]
    omega
  rw [Harpia.encryptField, wrapped, Option.bind_eq_bind, Option.bind_some, frame, if_neg fits]
  exact ⟨_, rfl⟩

section Lone

/-- A message with one field set, below some message fields. -/
def lone (name : String) (c : Content Msg) : List String → Msg
  | [] => .mk [(name, c)]
  | step :: above => .mk [(step, .sub (lone name c above))]

/-- The message with the key 1. -/
def withKey (m : Msg) : Msg := .mk (m.fields ++ [(pk, .scalar (.int 1))])

variable {name n : String} {c c' : Content Msg} {above path : List String}

theorem get?_single (name n : String) (c : Content Msg) :
    (Msg.mk [(name, c)]).get? n = if n = name then some c else none := by
  simp only [Msg.get?, Msg.fields, List.lookup_cons, List.lookup_nil]
  by_cases same : n = name
  · rw [if_pos same, same, beq_self_eq_true]
  · rw [if_neg same, beq_eq_false_iff_ne.mpr same]

theorem get?_withKey (m : Msg) (n : String) :
    (withKey m).get? n = (m.get? n).or (if n = pk then some (.scalar (.int 1)) else none) := by
  have split_ : (withKey m).get? n = (m.get? n).or ((Msg.mk [(pk, .scalar (.int 1))]).get? n) := by
    simp only [withKey, Msg.get?, Msg.fields, List.lookup_append]
  rw [split_, get?_single]

theorem sub?_withKey (m : Msg) (n : String) : (withKey m).sub? n = m.sub? n := by
  rw [Msg.sub?, Msg.sub?, get?_withKey]
  cases m.get? n with
  | some c => rfl
  | none =>
    by_cases key : n = pk
    · rw [if_pos key]
      rfl
    · rw [if_neg key]
      rfl

theorem at?_withKey {m : Msg} (some_ : path ≠ []) : (withKey m).at? path = m.at? path := by
  cases path with
  | nil => exact absurd rfl some_
  | cons step path => rw [Msg.at?, Msg.at?, sub?_withKey]

theorem at?_lone : (lone name c above).at? above = some (.mk [(name, c)]) := by
  induction above with
  | nil => rfl
  | cons step above ih =>
    have here : (lone name c (step :: above)).sub? step = some (lone name c above) := by
      rw [lone, Msg.sub?, get?_single, if_pos rfl]
    rw [Msg.at?, here]
    exact ih

/-- What is set in such a message is its field, or leads there. -/
theorem get?_lone (leaf : ∀ s, c ≠ .sub s) (h : ((lone name c above).inner path).get? n = some c') :
    path ++ [n] = above ++ [name] ∧ c' = c ∨ (∃ s, c' = .sub s) ∧ path ++ [n] <+: above := by
  induction path generalizing above with
  | nil =>
    cases above with
    | nil =>
      rw [Msg.inner_nil, lone, get?_single] at h
      split at h
      next same => exact .inl ⟨by rw [same], (Option.some.inj h).symm⟩
      next => cases h
    | cons step above =>
      rw [Msg.inner_nil, lone, get?_single] at h
      split at h
      next same =>
        refine .inr ⟨⟨_, (Option.some.inj h).symm⟩, ?_⟩
        rw [same]
        exact ⟨above, rfl⟩
      next => cases h
  | cons first path ih =>
    cases held : (lone name c above).sub? first with
    | none =>
      rw [Msg.inner_cons, held, Option.getD_none, Msg.inner_empty] at h
      cases h
    | some s =>
      rw [Msg.inner_cons, held, Option.getD_some] at h
      have here := Msg.get?_of_sub? held
      cases above with
      | nil =>
        rw [lone, get?_single] at here
        split at here
        · exact absurd (Option.some.inj here) (leaf s)
        · cases here
      | cons step above =>
        rw [lone, get?_single] at here
        split at here
        next same =>
          cases here
          subst same
          rcases ih h with ⟨there, own⟩ | ⟨sub, there⟩
          · exact .inl ⟨by rw [List.cons_append, List.cons_append, there], own⟩
          · exact .inr ⟨sub, List.cons_prefix_cons.mpr ⟨rfl, there⟩⟩
        next => cases here

/-- The keyed message with one field set below some message fields. -/
def keyedLone (path : FieldPath) (c : Content Msg) : Msg := withKey (lone path.field c path.owner)

variable {field : FieldPath}

theorem get?_keyedLone (leaf : ∀ s, c ≠ .sub s)
    (h : ((keyedLone field c).inner path).get? n = some c') :
    path ++ [n] = field.steps ∧ c' = c ∨ (∃ s, c' = .sub s) ∧ path ++ [n] <+: field.owner ∨
      path ++ [n] = [pk] ∧ c' = .scalar (.int 1) := by
  cases path with
  | nil =>
    rw [Msg.inner_nil, keyedLone, get?_withKey] at h
    cases held : (lone field.field c field.owner).get? n with
    | none =>
      rw [held, Option.none_or] at h
      split at h
      next same => exact .inr (.inr ⟨by rw [same]; rfl, (Option.some.inj h).symm⟩)
      next => cases h
    | some other =>
      rw [held, Option.some_or] at h
      cases h
      have own : ((lone field.field c field.owner).inner []).get? n = some c' := held
      exact (get?_lone leaf own).imp id .inl
  | cons step path =>
    rw [Msg.inner_cons, keyedLone, sub?_withKey, ← Msg.inner_cons] at h
    exact (get?_lone leaf h).imp id .inl

theorem at?_keyedLone : ((keyedLone field c).at? field.owner).isSome := by
  by_cases own : field.owner = []
  · rw [own]
    rfl
  · rw [keyedLone, at?_withKey own, at?_lone]
    rfl

theorem held_keyedLone : ((keyedLone field c).inner field.owner).get? field.field = some c := by
  by_cases own : field.owner = []
  · rw [own, Msg.inner_nil, keyedLone, own, get?_withKey, lone, get?_single, if_pos rfl]
    rfl
  · rw [Msg.inner, keyedLone, at?_withKey own, at?_lone, Option.getD_some, get?_single, if_pos rfl]

/-- Unless its field is the key, or below it, the message has the key 1. -/
theorem scalar?_keyedLone (other : field.steps.head? ≠ some pk) :
    (keyedLone field c).scalar? pk = some (.int 1) := by
  have none_ : (lone field.field c field.owner).get? pk = none := by
    obtain ⟨owner, name⟩ := field
    cases owner with
    | nil =>
      rw [lone, get?_single, if_neg]
      rintro rfl
      exact other rfl
    | cons step owner =>
      rw [lone, get?_single, if_neg]
      rintro rfl
      exact other rfl
  rw [Msg.scalar?, keyedLone, get?_withKey, none_, if_pos rfl]
  rfl

theorem elements_keyedLone {field : FieldPath} {c : Content Msg} (leaf : ∀ s, c ≠ .sub s)
    {path : List String} {n : String} (other : ∀ ms, c = .elements ms → path ++ [n] ≠ field.steps) :
    ((keyedLone field c).inner path).elements n = [] := by
  unfold Msg.elements
  split
  next ms held =>
    rcases get?_keyedLone leaf held with ⟨there, same⟩ | ⟨⟨s, same⟩, _⟩ | ⟨_, same⟩
    · exact absurd there (other ms same.symm)
    · cases same
    · cases same
  next => rfl

end Lone

section Row

variable {E : DaoEnv} {name : String} {dao : Dao} {p : KeyProvider}

theorem embedsSet_isSome {types : Types} {steps : List String} {d : Message} {o : Message × Msg}
    (place : ownerOf types steps d .empty = some o) (m : Msg) : (embedsSet types steps d m).isSome := by
  induction steps generalizing d m with
  | nil => rfl
  | cons step steps ih =>
    obtain ⟨sub, here, place⟩ := Option.bind_eq_some_iff.mp place
    obtain ⟨v, found, isSub⟩ := Option.bind_eq_some_iff.mp here
    have set_ : hasField types d m step = some (m.sub? step).isSome := by
      rw [hasField, found, Option.bind_some, if_pos (by rw [isSub, Option.isSome_some])]
    rw [embedsSet, set_, Option.bind_some]
    split
    · rw [here, Option.bind_some]
      exact ih place _
    · rfl

theorem subType_of_table {types : Types} {v : Variable} {target : String} {m : Message}
    (single : v.singular) (type : v.type = .ID target)
    (found : lookupType types target = some (.table, m)) : subType types v = some m := by
  rw [subType, if_pos single, messageType, type]
  simp only [found]

theorem bindValue_key (types : Types) (d : Message) (m : Msg) :
    bindValue types d m pk = some (toDb (attrValue harpiaId m)) := by
  rw [bindValue, field?_pk]
  rfl

theorem pkValue_of_scalar (E : DaoEnv) (dao : Dao) {msg : Msg} (key : msg.scalar? pk = some (.int 1)) :
    pkValue E dao msg = some (.int 1) := by
  rw [pkValue, bindValue_key, attrValue]
  change some (toDb ((msg.scalar? pk).getD _)) = _
  rw [key]
  rfl

variable (class_ : daoClass E.schema name = some dao)
  (reach : PathsReach sqlite E.schema dao.message)

include class_ reach

theorem columnValue_isSome {col : DaoColumn} (hcol : col ∈ dao.columns) (msg : Msg) :
    (columnValue E.schema.types dao.message msg col).isSome := by
  obtain ⟨above, q, _, _, _, _, _, _, placed, kind⟩ := placed_column reach class_ hcol
  obtain ⟨d, empty, place, found⟩ := placed.owner msg
  rw [columnValue, place, Option.bind_some]
  cases kind with
  | embed h presence _ _ =>
    obtain ⟨m, hm⟩ := Option.isSome_iff_exists.mp h
    rw [if_pos presence, hasField, found, Option.bind_some, subType_of_embed hm]
    rfl
  | table single type found_ presence fk _ =>
    rw [if_neg (by simp [presence]), if_pos (by simp [fk]), found, Option.bind_some,
      subType_of_table single type found_, Option.bind_some, bindValue_key]
    rfl
  | value h presence fk =>
    obtain ⟨set_, hset⟩ := Option.isSome_iff_exists.mp (embedsSet_isSome empty msg)
    rw [if_neg (by simp [presence]), if_neg (by simp [fk]), hset, Option.bind_some]
    split
    · rw [bindValue, found, Option.bind_some, if_pos h]
      rfl
    · rfl

theorem bindColumn_result (seals : p.Seals) {col : DaoColumn} (hcol : col ∈ dao.columns) (msg : Msg) :
    ((bindColumn E p dao msg col).result anyAnswer).isSome := by
  obtain ⟨above, q, _, _, _, _, _, _, placed, _⟩ := placed_column reach class_ hcol
  obtain ⟨d, _, place, found⟩ := placed.owner msg
  unfold bindColumn
  split
  · rw [Calls.result_ofOption_bind place, Calls.result_ofOption_bind found]
    split
    · rfl
    · have short : (List.replicate 32 3 : Bytes).length < 2 ^ 32 := by
        rw [List.length_replicate]
        decide
      obtain ⟨stored, he⟩ := seals.encryptField short
        (plaintext E.fixed (attrValue q.1 (msg.inner col.path.owner)))
      rw [Calls.result_bind]
      change (Calls.result anyAnswer
        (Calls.ofOption (encryptField .python p (List.replicate 32 3) _) >>= _)).isSome
      rw [Calls.result_ofOption_bind he]
      rfl
  · obtain ⟨v, hv⟩ := Option.isSome_iff_exists.mp (columnValue_isSome class_ reach hcol msg)
    rw [Calls.result_ofOption_bind hv]
    rfl

/-- The row of a message with a key is inserted, with what is bound for each column. -/
theorem insertRow_result (seals : p.Seals) {msg : Msg} (key : msg.scalar? pk = some (.int 1)) :
    (insertRow E p dao setKey msg).result anyAnswer = some msg ∧
      ∀ col ∈ dao.columns, ∀ cell, (bindColumn E p dao msg col).result anyAnswer = some cell →
        ∃ r ∈ (insertRow E p dao setKey msg).made anyAnswer, cell ∈ r.cells := by
  have keyed := pkValue_of_scalar E dao key
  obtain ⟨cells, all, each⟩ := Calls.result_collect anyAnswer (bindColumn E p dao msg)
    fun col hcol => bindColumn_result class_ reach seals hcol msg
  have given : ¬ (dao.message.isAutokey ∧ Value.int 1 = .int 0) := by simp
  unfold insertRow
  constructor
  · rw [Calls.result_ofOption_bind keyed, if_neg given, Calls.result_bind, all]
    rfl
  · intro col hcol cell hcell
    refine ⟨.insert dao.table cells, ?_, ?_⟩
    · apply Calls.mem_made_ofOption keyed
      rw [if_neg given]
      exact Calls.mem_made_right all (Calls.mem_made_left (List.mem_singleton_self _))
    · obtain ⟨cell', mem, bound⟩ := exists_of_forall₂ each hcol
      rw [hcell] at bound
      exact Option.some.inj bound ▸ mem

end Row

section Create

variable {E : DaoEnv} {name : String} {dao : Dao} {p : KeyProvider}

/-- `create` of the DAO of another message, within a recursion budget. -/
def storeNested (E : DaoEnv) (fuel : Nat) (target : String) (m : Msg) : Cursor Msg := do
  let d ← Calls.ofOption (daoClass E.schema target)
  createIn E fuel E.defaultProvider d m

theorem createIn_succ (E : DaoEnv) (fuel : Nat) (p : KeyProvider) (dao : Dao) (msg : Msg) :
    createIn E (fuel + 1) p dao msg =
      (Calls.fold (storeChild E dao (storeNested E fuel)) msg dao.columns >>= fun msg =>
        insertRow E p dao setKey msg >>= fun msg => Calls.ofOption (pkValue E dao msg) >>= fun owner =>
          Calls.fold (writeChild E dao (storeNested E fuel) owner false) msg dao.children) :=
  rfl

/-- A message that is stored without the rows of others. -/
structure Single (dao : Dao) (msg : Msg) : Prop where
  key : msg.scalar? pk = some (.int 1)
  alone : ∀ col ∈ dao.columns, col.fk.isSome → (msg.inner col.path.owner).sub? col.path.field = none

variable (class_ : daoClass E.schema name = some dao)
  (reach : PathsReach sqlite E.schema dao.message)

include class_ reach

theorem storeChild_result {recur : String → Msg → Cursor Msg} {msg : Msg} (single : Single dao msg)
    {col : DaoColumn} (hcol : col ∈ dao.columns) :
    (storeChild E dao recur msg col).result anyAnswer = some msg := by
  unfold storeChild
  split
  · rfl
  next target fk =>
    obtain ⟨above, q, _, _, _, _, _, _, placed, kind⟩ := placed_column reach class_ hcol
    obtain ⟨d, _, place, found⟩ := placed.owner msg
    have unset : hasField E.schema.types d (msg.inner col.path.owner) col.path.field = some false := by
      cases kind with
      | embed _ _ none_ _ => simp [none_] at fk
      | value _ _ none_ => simp [none_] at fk
      | table one type found_ _ _ _ =>
        rw [hasField, found, Option.bind_some, subType_of_table one type found_,
          if_pos Option.isSome_some, single.alone col hcol (by simp [fk])]
        rfl
    rw [Calls.result_ofOption_bind place, Calls.result_ofOption_bind unset]
    rfl

/-- What comes before the child tables. -/
theorem createIn_head (seals : p.Seals) {msg : Msg} (single : Single dao msg) (fuel : Nat) :
    (createIn E (fuel + 1) p dao msg).result anyAnswer = (Calls.fold
        (insertChild E dao (storeNested E fuel) (.int 1)) msg dao.children).result anyAnswer ∧
      (∀ r ∈ (insertRow E p dao setKey msg).made anyAnswer,
        r ∈ (createIn E (fuel + 1) p dao msg).made anyAnswer) ∧
      ∀ r ∈ (Calls.fold (insertChild E dao (storeNested E fuel) (.int 1)) msg dao.children).made
        anyAnswer, r ∈ (createIn E (fuel + 1) p dao msg).made anyAnswer := by
  have stored : (Calls.fold (storeChild E dao (storeNested E fuel)) msg dao.columns).result anyAnswer =
      some msg :=
    Calls.result_fold fun col hcol => storeChild_result class_ reach single hcol
  have row := (insertRow_result class_ reach seals single.key).1
  have keyed := pkValue_of_scalar E dao single.key
  rw [createIn_succ]
  refine ⟨?_, fun r hr => ?_, fun r hr => ?_⟩
  · rw [Calls.result_bind, stored, Option.bind_some, Calls.result_bind, row, Option.bind_some,
      Calls.result_ofOption_bind keyed]
    rfl
  · exact Calls.mem_made_right stored (Calls.mem_made_left hr)
  · exact Calls.mem_made_right stored (Calls.mem_made_right row (Calls.mem_made_ofOption keyed hr))

/-- A message with one value is stored without the rows of others. -/
theorem single_keyedLone {path : FieldPath} {above : List Place} {q : Place}
    (placed : PlacedAt E.schema.types dao.message path above q) {c : Content Msg}
    (leaf : ∀ s, c ≠ .sub s) (other : path.steps.head? ≠ some pk) : Single dao (keyedLone path c) := by
  refine ⟨scalar?_keyedLone other, fun col hcol fk => ?_⟩
  unfold Msg.sub?
  split
  next s held =>
    rcases get?_keyedLone leaf held with ⟨_, same⟩ | ⟨_, start⟩ | ⟨_, same⟩
    · exact absurd same.symm (leaf s)
    · -- another field hangs below no foreign key
      obtain ⟨above', q', _, _, _, _, _, _, placed', kind⟩ := placed_column reach class_ hcol
      have below : col.path.steps <+: path.steps := start.trans (List.prefix_append _ _)
      obtain ⟨rfl, rfl⟩ := placed'.eq_of_prefix placed (kind.leaf fk) below
      have length := start.length_le
      rw [placed.path] at length
      rw [placed'.path] at length
      simp only [List.length_append, List.length_singleton] at length
      omega
    · cases same
  next => rfl

end Create

section Child

variable {E : DaoEnv} {field : Variable} {m : Msg}

theorem writeMap_result (dao : Dao) (child : DaoChild) (owner : Value) (m : Msg)
    (isMap : field.typeMap ≠ []) :
    (writeMap dao owner child field m).result anyAnswer = some () ∧
      ∀ e ∈ (m.map field.name).entries, ∃ r ∈ (writeMap dao owner child field m).made anyAnswer,
        childCell dao child "value" (toDb e.2) ∈ r.cells := by
  unfold writeMap
  rw [if_neg isMap]
  have answered : ∀ e ∈ (m.map field.name).entries, ((Cursor.insert child.table
      [ownerCell dao owner, childCell dao child "key" (toDb e.1),
        childCell dao child "value" (toDb e.2)]).result anyAnswer).isSome := fun _ _ => rfl
  obtain ⟨rows, all, _⟩ := Calls.result_collect anyAnswer _ answered
  refine ⟨?_, fun e he => ⟨_, Calls.mem_made_left (Calls.mem_made_collect (fun _ _ => rfl) he
    (List.mem_singleton_self _)), ?_⟩⟩
  · rw [Calls.result_bind, all]
    rfl
  · simp [Request.cells]

theorem writeRepeated_result (dao : Dao) (child : DaoChild) (owner : Value) {items : List Scalar}
    (list : iterate E field m = some items) :
    (writeRepeated E dao owner child field m).result anyAnswer = some () ∧
      ∀ x ∈ items, ∃ r ∈ (writeRepeated E dao owner child field m).made anyAnswer,
        childCell dao child "value" (toDb x) ∈ r.cells := by
  unfold writeRepeated
  have answered : ∀ e ∈ items.zipIdx, ((Cursor.insert child.table
      [ownerCell dao owner, ordinalCell e.2, childCell dao child "value" (toDb e.1)]).result
        anyAnswer).isSome := fun _ _ => rfl
  obtain ⟨rows, all, _⟩ := Calls.result_collect anyAnswer _ answered
  refine ⟨?_, fun x hx => ?_⟩
  · rw [Calls.result_ofOption_bind list, Calls.result_bind, all]
    rfl
  · rw [← List.zipIdx_map_fst 0 items] at hx
    obtain ⟨e, he, rfl⟩ := List.mem_map.mp hx
    refine ⟨_, Calls.mem_made_ofOption list (Calls.mem_made_left (Calls.mem_made_collect
      (fun _ _ => rfl) he (List.mem_singleton_self _))), ?_⟩
    simp [Request.cells]

theorem messageType_of_found {types : Types} {target : String} {k : TypeKind} {sub : Message}
    (type : field.type = .ID target) (found : lookupType types target = some (k, sub))
    (message : k ≠ .enum) : messageType types field = some sub := by
  rw [messageType, type]
  cases k with
  | enum => exact absurd rfl message
  | message => simp only [found]
  | table => simp only [found]

theorem elementsType_of_found (E : DaoEnv) {target : String} {k : TypeKind} {sub : Message}
    (plain : field.typeMap = []) (rep : .REPETEABLE ∈ field.modifiers) (type : field.type = .ID target)
    (found : lookupType E.schema.types target = some (k, sub)) (message : k ≠ .enum) :
    elementsType E field = some sub := by
  rw [elementsType, if_pos ⟨plain, rep⟩, messageType_of_found type found message]

/-- The elements with their ordinals. -/
theorem fst_mem_of_zipIdx {α : Type} {xs : List α} {e : α × Nat} (he : e ∈ xs.zipIdx) : e.1 ∈ xs := by
  have mem : e.1 ∈ xs.zipIdx.map Prod.fst := List.mem_map_of_mem he
  rwa [List.zipIdx_map_fst] at mem

theorem exists_zipIdx {α : Type} {xs : List α} {x : α} (hx : x ∈ xs) : ∃ i, (x, i) ∈ xs.zipIdx := by
  rw [← List.zipIdx_map_fst 0 xs] at hx
  obtain ⟨e, he, rfl⟩ := List.mem_map.mp hx
  exact ⟨e.2, he⟩

theorem writeLinks_result (dao : Dao) (child : DaoChild) (owner : Value) (recur : Msg → Cursor Msg)
    {sub : Message} (elem : elementsType E field = some sub)
    (kept_ : ∀ e ∈ m.elements field.name, (recur e).result anyAnswer = some e) :
    (writeLinks E dao recur owner child field m).result anyAnswer = some (m.elements field.name) ∧
      ∀ e ∈ m.elements field.name, ∃ r ∈ (writeLinks E dao recur owner child field m).made anyAnswer,
        childCell dao child "value" (toDb (attrValue harpiaId e)) ∈ r.cells := by
  have keyed : ∀ e, bindValue E.schema.types sub e pk = some (toDb (attrValue harpiaId e)) :=
    bindValue_key E.schema.types sub
  have round : ∀ e ∈ (m.elements field.name).zipIdx, (do
      let item ← recur e.1
      let key ← Calls.ofOption (bindValue E.schema.types sub item pk)
      let _ ← Cursor.insert child.table
        [ownerCell dao owner, ordinalCell e.2, childCell dao child "value" key]
      return item : Cursor Msg).result anyAnswer = some e.1 := by
    intro e he
    rw [Calls.result_bind, kept_ e.1 (fst_mem_of_zipIdx he), Option.bind_some,
      Calls.result_ofOption_bind (keyed e.1)]
    rfl
  have each := fun e he => Option.isSome_of_mem (round e he)
  unfold writeLinks
  constructor
  · rw [Calls.result_ofOption_bind elem, Calls.result_collect_map round, List.zipIdx_map_fst]
  · intro x hx
    obtain ⟨i, he⟩ := exists_zipIdx hx
    refine ⟨.insert child.table [ownerCell dao owner, ordinalCell i,
      childCell dao child "value" (toDb (attrValue harpiaId x))], ?_, by simp [Request.cells]⟩
    apply Calls.mem_made_ofOption elem
    apply Calls.mem_made_collect each he
    apply Calls.mem_made_right (kept_ x hx)
    exact Calls.mem_made_ofOption (keyed x) (Calls.mem_made_left (List.mem_singleton_self _))

theorem writeComposed_result (dao : Dao) (child : DaoChild) (owner : Value)
    {columns : List DaoColumn} {sub : Message} (elem : elementsType E field = some sub)
    (bound : ∀ e ∈ m.elements field.name, ∀ col ∈ columns,
      (columnValue E.schema.types sub e col).isSome) :
    (writeComposed E dao owner child columns field m).result anyAnswer = some () ∧
      ∀ e ∈ m.elements field.name, ∀ col ∈ columns, ∀ v, columnValue E.schema.types sub e col = some v →
        ∃ r ∈ (writeComposed E dao owner child columns field m).made anyAnswer,
          elementCell dao child col v ∈ r.cells := by
  have cells : ∀ e ∈ m.elements field.name, ∃ made, (Calls.collect (fun col => do
      let v ← Calls.ofOption (columnValue E.schema.types sub e col)
      return elementCell dao child col v : DaoColumn → Cursor Cell) columns).result anyAnswer =
        some made ∧ ∀ col ∈ columns, ∀ v, columnValue E.schema.types sub e col = some v →
          elementCell dao child col v ∈ made := by
    intro e he
    have answered : ∀ col ∈ columns, ((do
        let v ← Calls.ofOption (columnValue E.schema.types sub e col)
        return elementCell dao child col v : Cursor Cell).result anyAnswer).isSome := by
      intro col hcol
      obtain ⟨v, hv⟩ := Option.isSome_iff_exists.mp (bound e he col hcol)
      rw [Calls.result_ofOption_bind hv]
      rfl
    obtain ⟨made, all, each⟩ := Calls.result_collect anyAnswer _ answered
    refine ⟨made, all, fun col hcol v hv => ?_⟩
    obtain ⟨cell, mem, result⟩ := exists_of_forall₂ each hcol
    rw [Calls.result_ofOption_bind hv] at result
    exact Option.some.inj result ▸ mem
  have each : ∀ e ∈ (m.elements field.name).zipIdx, (do
      let cells ← Calls.collect (fun col => do
        let v ← Calls.ofOption (columnValue E.schema.types sub e.1 col)
        return elementCell dao child col v) columns
      Cursor.insert child.table (ownerCell dao owner :: ordinalCell e.2 :: cells) : Cursor Row).result
        anyAnswer |>.isSome := by
    intro e he
    obtain ⟨made, all, _⟩ := cells e.1 (fst_mem_of_zipIdx he)
    rw [Calls.result_bind, all]
    rfl
  unfold writeComposed
  constructor
  · obtain ⟨rows, all, _⟩ := Calls.result_collect anyAnswer _ each
    rw [Calls.result_ofOption_bind elem, Calls.result_bind, all]
    rfl
  · intro x hx col hcol v hv
    obtain ⟨i, he⟩ := exists_zipIdx hx
    obtain ⟨made, all, mem⟩ := cells x hx
    refine ⟨.insert child.table (ownerCell dao owner :: ordinalCell i :: made), ?_,
      List.mem_cons_of_mem _ (List.mem_cons_of_mem _ (mem col hcol v hv))⟩
    apply Calls.mem_made_ofOption elem
    apply Calls.mem_made_left
    apply Calls.mem_made_collect each he
    exact Calls.mem_made_right all (List.mem_singleton_self _)

end Child

section Insert

variable {E : DaoEnv} {dao : Dao} {child : DaoChild} {owner : Value} {msg : Msg} {base : Message × Msg}
  {field : Variable}

/-- Where the rows of a child table come from. -/
theorem insertChild_answers (recur : String → Msg → Cursor Msg)
    (place : ownerOf E.schema.types child.path.owner dao.message msg = some base)
    (found : base.1.field? child.path.field = some field) {rest : Cursor Msg}
    (same : (match child.kind with
      | .map => writeMap dao owner child field base.2 >>= fun _ => pure msg
      | .repeated none => writeRepeated E dao owner child field base.2 >>= fun _ => pure msg
      | .repeated (some target) =>
        writeLinks E dao (recur target) owner child field base.2 >>= fun items =>
          if items.isEmpty then pure msg
          else Calls.ofOption (msg.modify
            (fun o => some (o.set field.name (some (.elements items)))) child.path.owner)
      | .composed columns =>
        writeComposed E dao owner child columns field base.2 >>= fun _ => (pure msg : Cursor Msg)) = rest) :
    (insertChild E dao recur owner msg child).result anyAnswer = rest.result anyAnswer ∧
      ∀ r ∈ rest.made anyAnswer, r ∈ (insertChild E dao recur owner msg child).made anyAnswer := by
  subst same
  constructor
  · exact (Calls.result_ofOption_bind place).trans (Calls.result_ofOption_bind found)
  · exact fun r hr => Calls.mem_made_ofOption place (Calls.mem_made_ofOption found hr)

variable {name : String} (class_ : daoClass E.schema name = some dao)
  (reach : PathsReach sqlite E.schema dao.message)

include class_ reach

/-- A child table without elements of other tables leaves the message as it is. -/
theorem insertChild_idle {recur : String → Msg → Cursor Msg} (hc : child ∈ dao.children)
    (none_ : (msg.inner child.path.owner).elements child.path.field = []) :
    (insertChild E dao recur owner msg child).result anyAnswer = some msg := by
  obtain ⟨above, q, placed, kind, _⟩ := placed_child reach (isDao_of_daoClass class_) hc
  obtain ⟨d, _, place, found⟩ := placed.owner msg
  have named := field?_name found
  rw [← named] at none_
  cases kind_ : child.kind with
  | map =>
    rw [kind_] at kind
    cases kind with
    | map isMap =>
      rw [(insertChild_answers recur place found (by rw [kind_])).1, Calls.result_bind,
        (writeMap_result dao child owner _ (typeMap_ne_nil isMap)).1]
      rfl
  | repeated fk =>
    rw [kind_] at kind
    cases kind with
    | scalars isList =>
      obtain ⟨plain, rep, token⟩ := isList
      have list : iterate E q.1 (msg.inner child.path.owner) =
          some ((msg.inner child.path.owner).list q.1.name) := by
        simp [iterate, plain, rep, token]
      rw [(insertChild_answers recur place found (by rw [kind_])).1, Calls.result_bind,
        (writeRepeated_result dao child owner list).1]
      rfl
    | links plain rep type found_ =>
      have elem := elementsType_of_found E plain rep type found_ TypeKind.noConfusion
      rw [(insertChild_answers recur place found (by rw [kind_])).1, Calls.result_bind,
        (writeLinks_result dao child owner _ elem (by simp [none_])).1, none_]
      rfl
  | composed columns =>
    rw [kind_] at kind
    cases kind with
    | elements plain rep type found_ flat =>
      have elem := elementsType_of_found E plain rep type found_ TypeKind.noConfusion
      rw [(insertChild_answers recur place found (by rw [kind_])).1, Calls.result_bind,
        (writeComposed_result dao child owner elem (by simp [none_])).1]
      rfl

end Insert

section Bare

/-- The message with nothing but a key. -/
def bare : Msg := withKey .empty

theorem get?_bare {path : List String} {n : String} {c : Content Msg}
    (h : (bare.inner path).get? n = some c) : c = .scalar (.int 1) := by
  cases path with
  | nil =>
    rw [Msg.inner_nil, bare, get?_withKey, Msg.get?_empty, Option.none_or] at h
    split at h
    · exact (Option.some.inj h).symm
    · cases h
  | cons step path =>
    rw [Msg.inner_cons, bare, sub?_withKey] at h
    change (Msg.empty.inner path).get? n = some c at h
    rw [Msg.inner_empty] at h
    cases h

theorem sub?_bare (path : List String) (n : String) : (bare.inner path).sub? n = none := by
  unfold Msg.sub?
  split
  next s held => cases get?_bare held
  next => rfl

theorem elements_bare (path : List String) (n : String) : (bare.inner path).elements n = [] := by
  unfold Msg.elements
  split
  next ms held => cases get?_bare held
  next => rfl

theorem single_bare (dao : Dao) : Single dao bare := ⟨rfl, fun _ _ _ => sub?_bare _ _⟩

theorem createIn_bare {E : DaoEnv} {name : String} {dao : Dao}
    (class_ : daoClass E.schema name = some dao) (reach : PathsReach sqlite E.schema dao.message)
    (seals : E.defaultProvider.Seals) (fuel : Nat) :
    (createIn E (fuel + 1) E.defaultProvider dao bare).result anyAnswer = some bare := by
  rw [(createIn_head class_ reach seals (single_bare dao) fuel).1]
  exact Calls.result_fold fun child hc => insertChild_idle class_ reach hc (elements_bare _ _)

end Bare

end Harpia
