import Harpia.DaoReadable

namespace Harpia

open Text Proto

/-- Where the field of a part of a DAO is found. -/
theorem PlacedAt.owner {types : Types} {m : Message} {path : FieldPath} {above : List Place} {q : Place}
    (placed : PlacedAt types m path above q) (msg : Msg) :
    ∃ d, ownerOf types path.owner m .empty = some (d, .empty) ∧
      ownerOf types path.owner m msg = some (d, msg.inner path.owner) ∧
      d.field? path.field = some q.1 := by
  obtain ⟨steps, reached⟩ := placed.reached
  obtain ⟨d, place, found⟩ := place_of_resolve reached
  rw [placed.path]
  refine ⟨d, place, ?_, found⟩
  rw [ownerOf_eq, place]
  rfl

section Render

variable {S : Schema} {m : Message}

theorem mapM_isSome {α β : Type} {f : α → Option β} {l : List α} (each : ∀ x ∈ l, (f x).isSome) :
    (l.mapM f).isSome := by
  induction l with
  | nil => rfl
  | cons x l ih =>
    obtain ⟨y, hy⟩ := Option.isSome_iff_exists.mp (each x List.mem_cons_self)
    obtain ⟨ys, hys⟩ := Option.isSome_iff_exists.mp (ih fun z hz => each z (List.mem_cons_of_mem x hz))
    rw [List.mapM_cons, hy, hys]
    rfl

theorem ofSteps_of_resolve {steps : List String} {path : List Place}
    (reached : resolve S.types m steps = some path) :
    ((walk S.types m steps).bind FieldPath.ofSteps).isSome := by
  rw [walk_of_resolve reached, Option.bind_some, FieldPath.ofSteps, Option.isSome_map,
    List.getLast?_isSome]
  simpa using resolve_ne_nil reached

theorem columnSpec_isSome {c : Column} {path : List Place}
    (reached : resolve S.types m c.accessPath = some path) : (columnSpec S.types m c).isSome := by
  rw [columnSpec, Option.isSome_map, exactPath]
  unfold Column.accessPath at reached
  split
  next presence =>
    rw [if_pos presence] at reached
    exact ofSteps_of_resolve reached
  next presence =>
    rw [if_neg presence] at reached
    split
    next embed =>
      rw [if_pos embed] at reached
      exact ofSteps_of_resolve reached
    next => rfl

variable (reach : PathsReach sqlite S m)

include reach

/-- A repeated field of the message itself has its child table, with the columns of its elements. -/
theorem directSpec_isSome {p : Place} {f : RepeatedField} (hp : p ∈ m.places)
    (hf : f ∈ directRepeated sqlite S.types S.fuel m.tableName p.1)
    (reached : resolve S.types m [lower p.1.name] = some [p]) : (repeatedSpec S.types m f).isSome := by
  unfold directRepeated at hf
  extract_lets table at hf
  split at hf
  · cases hf
  next own =>
    obtain ⟨plain, rep⟩ := not_or.mp own
    rw [not_not] at plain rep
    split at hf
    next target type =>
      split at hf
      next elem found =>
        cases List.mem_singleton.mp hf
        rw [repeatedSpec, Option.isSome_map]
        exact ofSteps_of_resolve reached
      next elem found =>
        extract_lets cols at hf
        split at hf
        · cases List.mem_singleton.mp hf
          have isElem : elementType S.types m (lower p.1.name) = some elem := by
            obtain ⟨q, rest, accessor, _, same, steps, _, accessed, _⟩ := resolve_cons reached
            obtain ⟨rfl, rfl⟩ := List.cons.inj same
            obtain ⟨rfl, _⟩ := List.cons.inj steps
            rw [elementType, find_of_accessed accessed, Option.bind_some, type]
            simp only [found, Option.map_some]
          have composed : composedTarget S.types p.1 = some elem := by
            rw [composedTarget, type]
            simp only [found]
          have each : ∀ c ∈ cols, (elementColumnSpec S.types elem c).isSome := by
            intro c hc
            have mem := composedTarget_mem composed
            have hc : c ∈ (flatten sqlite S.types S.fuel p.1.name elem [] false).1 := hc
            rw [flatten_eq_emittedIn S mem (S.rank_lt_fuel mem)] at hc
            obtain ⟨e, he, hc⟩ := List.mem_flatMap.mp (by simpa [forget] using hc)
            rw [elementColumnSpec, Option.isSome_map]
            exact ofSteps_of_resolve (reach.elements p hp plain rep elem composed e he c hc)
          obtain ⟨path, hpath⟩ := Option.isSome_iff_exists.mp (ofSteps_of_resolve reached)
          rw [repeatedSpec, isElem, Option.bind_some, hpath, Option.bind_some, Option.isSome_map]
          exact mapM_isSome each
        · cases hf
      next => cases hf
    next =>
      split at hf
      next =>
        cases List.mem_singleton.mp hf
        rw [repeatedSpec, Option.isSome_map]
        exact ofSteps_of_resolve reached
      next => cases hf

/-- The generator makes a DAO where its paths reach their fields. -/
theorem render_isSome (hm : m ∈ S.messages) (table : m.tableName ≠ "") : (render S m).isSome := by
  have columns : ((boundColumns (analyze sqlite S.types S.fuel m).1).mapM
      (columnSpec S.types m)).isSome := by
    apply mapM_isSome
    intro c bound
    have analyzed : c ∈ (analyze sqlite S.types S.fuel m).1 := by
      rcases List.mem_append.mp bound with bound | bound
      · exact List.mem_of_mem_filter bound
      · exact List.mem_of_mem_filter bound
    rw [analyze_eq_emitted S hm] at analyzed
    obtain ⟨e, he, hc⟩ := List.mem_flatMap.mp analyzed
    exact columnSpec_isSome (reach.columns e he c hc)
  have maps : ((mapFields sqlite S.types m).mapM (mapSpec S.types m)).isSome := by
    apply mapM_isSome
    intro f hf
    rw [mapFields_eq_traced] at hf
    obtain ⟨e, he, rfl⟩ := List.mem_map.mp hf
    rw [mapSpec, Option.isSome_map]
    exact ofSteps_of_resolve (reach.maps e he)
  have repeateds : ((repeatedFields sqlite S.types S.fuel m).mapM (repeatedSpec S.types m)).isSome := by
    apply mapM_isSome
    intro f hf
    rw [repeatedFields_eq_traced] at hf
    obtain ⟨e, he, rfl⟩ := List.mem_map.mp hf
    have reached := reach.repeateds e he
    rcases (mem_tracedRepeateds table).mp he with ⟨p, hp, path, hf⟩ | ⟨p, _, _, d, _, q, _, _, hf⟩
    · rw [path, directRepeated_access hf] at reached
      exact directSpec_isSome reach hp hf reached
    · unfold embeddedScalar at hf
      split at hf
      · cases hf
      · obtain ⟨sql, _, entry⟩ := Option.map_eq_some_iff.mp (Option.mem_toList.mp hf)
        rw [← entry] at reached ⊢
        rw [repeatedSpec, Option.isSome_map]
        exact ofSteps_of_resolve reached
  obtain ⟨columns, hcolumns⟩ := Option.isSome_iff_exists.mp columns
  obtain ⟨maps, hmaps⟩ := Option.isSome_iff_exists.mp maps
  rw [render, hcolumns, Option.bind_some, hmaps, Option.bind_some, Option.isSome_map]
  exact repeateds

omit reach in
theorem daoClass_isSome (clear : AllAccessClear S) {target : String}
    (found : lookupType S.types target = some (.table, m)) :
    ∃ dao, daoClass S target = some dao ∧ dao.message = m := by
  obtain ⟨mem, named, kind⟩ := typeRegistry_mem found
  have table : m.tableName ≠ "" := by
    intro none_
    simp only [Message.kind, none_] at kind
    split at kind <;> simp at kind
  have first : (S.messages.find? fun m' => m'.name = target ∧ m'.kind = .table).isSome := by
    rw [List.find?_isSome]
    exact ⟨m, mem, by simp [named, kind]⟩
  obtain ⟨m', hm'⟩ := Option.isSome_iff_exists.mp first
  have same : m'.name = target ∧ m'.kind = .table := by simpa using List.find?_some hm'
  obtain rfl : m' = m := List.inj_on_of_nodup_map S.names_nodup (List.mem_of_find?_eq_some hm') mem
    (same.1.trans named.symm)
  have reach : PathsReach sqlite S m' := (pathsReach_iff mem table).mpr (clear m' mem table)
  obtain ⟨dao, hdao⟩ := Option.isSome_iff_exists.mp (render_isSome reach mem table)
  have class_ : daoClass S target = some dao := by rw [daoClass, hm', Option.bind_some, hdao]
  exact ⟨dao, class_, message_of_daoClass class_ found⟩

end Render

/-- The child table holds messages: it links to their rows, or stores them itself. -/
def DaoChildKind.holdsMessages : DaoChildKind → Bool
  | .map => false
  | .repeated fk => fk.isSome
  | .composed _ => true

section Messages

variable {S : Schema} {dao : Dao} {child child' : DaoChild} {above : List Place} {p : Place}

theorem ChildKind.holdsMessages {types : Types} {v : Variable} {kind : DaoChildKind}
    (h : ChildKind types v kind) :
    kind.holdsMessages = (decide (v.typeMap = []) && !isScalarToken v.type) := by
  cases h with
  | map h => simp [DaoChildKind.holdsMessages, typeMap_ne_nil h]
  | scalars h => simp [DaoChildKind.holdsMessages, h.2.2]
  | links plain _ type _ => simp [DaoChildKind.holdsMessages, plain, type, isScalarToken]
  | elements plain _ type _ _ => simp [DaoChildKind.holdsMessages, plain, type, isScalarToken]

theorem length_directRepeated (types : Types) (fuel : Nat) (table : String) (v : Variable) :
    (directRepeated sqlite types fuel table v).length ≤ 1 := by
  unfold directRepeated
  extract_lets name_
  split
  · exact Nat.zero_le 1
  · split
    · split
      · exact Nat.le_refl 1
      · extract_lets cols
        split
        · exact Nat.le_refl 1
        · exact Nat.zero_le 1
      · exact Nat.zero_le 1
    · split
      · exact Nat.le_refl 1
      · exact Nat.zero_le 1

/-- Messages are held for a repeated field of the DAO's own message only. -/
theorem direct_of_messages (reach : PathsReach sqlite S dao.message) (isDao : IsDao S dao)
    (hc : child ∈ dao.children) (messages : child.kind.holdsMessages)
    (placed : PlacedAt S.types dao.message child.path above p) :
    above = [] ∧ ∃ f ∈ directRepeated sqlite S.types S.fuel dao.message.tableName p.1,
      repeatedSpec S.types dao.message f = some child := by
  rcases isDao.child child hc with ⟨f, _, spec⟩ | ⟨f, hf, spec⟩
  · obtain ⟨path, _, rfl⟩ := Option.map_eq_some_iff.mp spec
    cases messages
  · rw [repeatedFields_eq_traced] at hf
    obtain ⟨e, he, rfl⟩ := List.mem_map.mp hf
    have reached := reach.repeateds e he
    rcases (mem_tracedRepeateds isDao.table).mp he with ⟨q, _, path, hf⟩ | ⟨q, _, _, _, _, r, _, _, hf⟩
    · rw [path] at reached
      have direct : PlacedAt S.types dao.message child.path [] q :=
        placed_of_walk reached (repeatedSpec_path spec)
      obtain ⟨rfl, rfl⟩ := placed.unique direct
      exact ⟨rfl, e.entry, hf, spec⟩
    · unfold embeddedScalar at hf
      split at hf
      · cases hf
      · obtain ⟨sql, _, entry⟩ := Option.map_eq_some_iff.mp (Option.mem_toList.mp hf)
        rw [← entry] at spec
        obtain ⟨path, _, rfl⟩ := Option.map_eq_some_iff.mp spec
        cases messages

/-- One child table holds the messages of a field. -/
theorem messages_unique (reach : PathsReach sqlite S dao.message) (isDao : IsDao S dao)
    (hc : child ∈ dao.children) (hc' : child' ∈ dao.children) (messages : child.kind.holdsMessages)
    (placed : PlacedAt S.types dao.message child.path above p)
    (placed' : PlacedAt S.types dao.message child'.path above p) : child' = child := by
  obtain ⟨_, _, placed₁, kind, _⟩ := placed_child reach isDao hc
  obtain ⟨_, q, placed₂, kind', _⟩ := placed_child reach isDao hc'
  obtain ⟨rfl, rfl⟩ := placed₁.unique placed
  obtain ⟨rfl, rfl⟩ := placed₂.unique placed'
  have messages' : child'.kind.holdsMessages := by rw [kind'.holdsMessages, ← kind.holdsMessages, messages]
  obtain ⟨_, f, hf, spec⟩ := direct_of_messages reach isDao hc messages placed
  obtain ⟨_, f', hf', spec'⟩ := direct_of_messages reach isDao hc' messages' placed'
  obtain ⟨i, hi⟩ := List.mem_iff_getElem?.mp hf
  obtain ⟨i', hi'⟩ := List.mem_iff_getElem?.mp hf'
  have one := length_directRepeated S.types S.fuel dao.message.tableName q.1
  obtain ⟨below, _⟩ := List.getElem?_eq_some_iff.mp hi
  obtain ⟨below', _⟩ := List.getElem?_eq_some_iff.mp hi'
  obtain rfl : i = i' := by omega
  cases hi.symm.trans hi'
  exact Option.some.inj (spec'.symm.trans spec)

end Messages

end Harpia
