import Harpia.DaoKeys

namespace Harpia

open Sqlite Proto Attempt

/-- The updates that an update makes, itself among them: of the children that are set, and of the
elements of repeated children. -/
inductive Updates (E : DaoEnv) : Dao → Msg → Dao → Msg → Prop
  | self (dao : Dao) (msg : Msg) : Updates E dao msg dao msg
  | column {dao d d' : Dao} {msg m' : Msg} {col : DaoColumn} {target : String} {owner : Message × Msg}
      (mem : col ∈ dao.columns) (fk : col.fk = some target) (stores : daoClass E.schema target = some d)
      (place : ownerOf E.schema.types col.path.owner dao.message msg = some owner)
      (set : hasField E.schema.types owner.1 owner.2 col.path.field = some true)
      (below : Updates E d ((owner.2.sub? col.path.field).getD .empty) d' m') :
      Updates E dao msg d' m'
  | element {dao d d' : Dao} {msg item m' : Msg} {child : DaoChild} {target : String}
      {base : Message × Msg} (mem : child ∈ dao.children) (kind : child.kind = .repeated (some target))
      (stores : daoClass E.schema target = some d)
      (place : ownerOf E.schema.types child.path.owner dao.message msg = some base)
      (item_mem : item ∈ base.2.elements child.path.field) (below : Updates E d item d' m') :
      Updates E dao msg d' m'

section Alike

variable {E : DaoEnv} {types : Types} {m m' : Msg}

theorem inner_snoc (m : Msg) (path : List String) (name : String) :
    ((m.inner path).sub? name).getD .empty = m.inner (path ++ [name]) := by
  rw [Msg.inner_append, Msg.inner_cons, Msg.inner_nil]

/-- Below the same attribute names stand the same type and an alike message. -/
theorem ownerOf_alike (h : m.Alike m') {steps : List String} {d : Message} {owner : Message × Msg}
    (place : ownerOf types steps d m' = some owner) :
    owner.2 = m'.inner steps ∧ ownerOf types steps d m = some (owner.1, m.inner steps) ∧
      (m.inner steps).Alike owner.2 := by
  rw [ownerOf_eq] at place
  obtain ⟨o, empty, rfl⟩ := Option.map_eq_some_iff.mp place
  refine ⟨rfl, ?_, h.inner steps⟩
  rw [ownerOf_eq, empty, Option.map_some]

theorem hasField_alike (h : m.Alike m') (d : Message) (name : String) :
    hasField types d m' name = hasField types d m name := by
  have subs : (m'.sub? name).isSome = (m.sub? name).isSome := h.subs [] name
  have reads : m'.scalar? name = m.scalar? name := (h.agrees []).scalar name
  simp only [hasField, subs, reads]

theorem pkValue_alike (h : m.Alike m') (dao : Dao) : pkValue E dao m' = pkValue E dao m := by
  have reads : ∀ name, m'.scalar? name = m.scalar? name := (h.agrees []).scalar
  simp only [pkValue, bindValue, isUnsetOptional, attrValue, reads]
  rfl

/-- Alike messages are updated through alike messages. -/
theorem Updates.alike {dao d : Dao} {x : Msg} (h : Updates E dao m' d x) (same : m.Alike m') :
    ∃ x₀, Updates E dao m d x₀ ∧ x₀.Alike x := by
  induction h generalizing m with
  | self dao msg => exact ⟨m, .self dao m, same⟩
  | @column dao d d' msg m' col target owner mem fk stores place set below ih =>
    obtain ⟨here, place', inner⟩ := ownerOf_alike same place
    have sub : (((m.inner col.path.owner).sub? col.path.field).getD .empty).Alike
        ((owner.2.sub? col.path.field).getD .empty) := by
      rw [here, inner_snoc, inner_snoc]
      exact same.inner _
    obtain ⟨x₀, updates, like⟩ := ih sub
    rw [hasField_alike inner] at set
    exact ⟨x₀, .column mem fk stores place' set updates, like⟩
  | @element dao d d' msg item m' child target base mem kind stores place item_mem below ih =>
    obtain ⟨_, place', inner⟩ := ownerOf_alike same place
    obtain ⟨x₀, updates, like⟩ := ih (.refl _)
    have elements : base.2.elements child.path.field =
        (m.inner child.path.owner).elements child.path.field := (inner.agrees []).elements _
    rw [elements] at item_mem
    exact ⟨x₀, .element mem kind stores place' item_mem updates, like⟩

end Alike

/-- A foreign key leads to a field of messages. -/
def LinksMessages (E : DaoEnv) (dao : Dao) : Prop :=
  ∀ col ∈ dao.columns, col.fk.isSome → ∀ owner, ownerOf E.schema.types col.path.owner dao.message .empty =
    some owner → ∀ field, owner.1.field? col.path.field = some field →
      (subType E.schema.types field).isSome

section Returned

variable {E : DaoEnv} {dao : Dao} {recur : String → Msg → Cursor Msg} {msg : Msg}

theorem sub?_of_hasField (links : LinksMessages E dao) {col : DaoColumn} (hcol : col ∈ dao.columns)
    (fk : col.fk.isSome) {owner : Message × Msg}
    (place : ownerOf E.schema.types col.path.owner dao.message msg = some owner)
    (set : hasField E.schema.types owner.1 owner.2 col.path.field = some true) :
    ∃ c, owner.2.sub? col.path.field = some c := by
  obtain ⟨field, found, set⟩ := Option.bind_eq_some_iff.mp set
  rw [ownerOf_eq] at place
  obtain ⟨o, empty, rfl⟩ := Option.map_eq_some_iff.mp place
  rw [if_pos (links col hcol fk o empty field found)] at set
  exact Option.isSome_iff_exists.mp (Option.some.inj set)

/-- A child that comes back as it was leaves its parent as it was. -/
theorem storeChild_alike (links : LinksMessages E dao) {col : DaoColumn} (hcol : col ∈ dao.columns)
    (returns : ∀ target m, col.fk = some target →
      (recur target m).Ensures (fun _ => True) fun m' => m' = m) :
    (storeChild E dao recur msg col).Ensures (fun _ => True) fun msg' => msg.Alike msg' := by
  unfold storeChild
  split
  · exact Msg.Alike.refl msg
  · next target fk =>
    refine Calls.ensures_bind (Calls.ensures_ofOption fun owner place => ?_)
    refine Calls.ensures_bind (Calls.ensures_ofOption fun set there => ?_)
    cases set with
    | false => exact Msg.Alike.refl msg
    | true =>
      refine Calls.ensures_bind (Calls.ensures_mono (returns target _ fk) fun child hchild => ?_)
      refine Calls.ensures_ofOption fun msg' hm => ?_
      obtain ⟨c, held⟩ := sub?_of_hasField links hcol (by rw [fk]; rfl) place there
      obtain ⟨here, _, _⟩ := ownerOf_alike (.refl msg) place
      rw [held, Option.getD_some] at hchild
      rw [hchild] at hm
      rw [here] at held
      refine Msg.modify_alike (Msg.at?_of_sub? held) (fun o' ho' => ?_) hm
      cases ho'
      exact Msg.set_sub_keeps held

theorem insertChild_alike {child : DaoChild} {key : Value}
    (returns : ∀ target m, child.kind = .repeated (some target) →
      (recur target m).Ensures (fun _ => True) fun m' => m' = m) :
    (insertChild E dao recur key msg child).Ensures (fun _ => True) fun msg' => msg.Alike msg' := by
  have same : ∀ {α : Type} {program : Cursor α}, program.Only (fun _ => True) →
      (program >>= fun _ => (pure msg : Cursor Msg)).Ensures (fun _ => True)
        fun msg' => msg.Alike msg' := fun only =>
    Calls.ensures_bind (Calls.ensures_mono only fun _ _ => Msg.Alike.refl msg)
  refine Calls.ensures_bind (Calls.ensures_ofOption fun base place => ?_)
  refine Calls.ensures_bind (Calls.ensures_ofOption fun field found => ?_)
  split
  · exact same (writeMap_only (fun _ => trivial) field base.2)
  · exact same (writeRepeated_only (fun _ => trivial) field base.2)
  · next target kind =>
    refine Calls.ensures_bind (Calls.ensures_mono
      (writeLinks_returns (fun m => returns target m kind) field base.2) fun items hitems => ?_)
    split
    · exact Msg.Alike.refl msg
    next some_ =>
      refine Calls.ensures_ofOption fun msg' hm => ?_
      obtain ⟨here, _, _⟩ := ownerOf_alike (.refl msg) place
      have held : (msg.inner child.path.owner).elements field.name ≠ [] := by
        rw [← here, ← hitems]
        simpa using some_
      rw [hitems, here] at hm
      refine Msg.modify_alike (Msg.at?_of_elements held) (fun o' ho' => ?_) hm
      cases ho'
      exact Msg.set_elements_keeps held
  · next columns kind => exact same (writeComposed_only (fun _ => trivial) columns field base.2)

theorem zipIdx_of_mapM_nil {α β : Type} {f : α × Nat → Option β} {xs : List α}
    (h : xs.zipIdx.mapM f = some []) : xs = [] := by
  have none_ : xs.zipIdx = [] := List.eq_nil_iff_forall_not_mem.mpr fun e he => by
    obtain ⟨y, hy, _⟩ := exists_of_mapM h he
    cases hy
  simpa using none_

/-- Where a child table is to hold nothing for the key, nothing is inserted. -/
theorem insertChild_bare {child : DaoChild} {key : Value}
    (bare : childTableEntries E (columnValue E.schema.types) dao key msg child = some []) :
    (insertChild E dao recur key msg child).Ensures (fun _ => False) fun msg' => msg' = msg := by
  obtain ⟨base, place, bare⟩ := Option.bind_eq_some_iff.mp bare
  obtain ⟨field, found, bare⟩ := Option.bind_eq_some_iff.mp bare
  refine Calls.ensures_bind (Calls.ensures_ofOption fun base' place' => ?_)
  cases place.symm.trans place'
  refine Calls.ensures_bind (Calls.ensures_ofOption fun field' found' => ?_)
  cases found.symm.trans found'
  split
  · next kind =>
    rw [kind] at bare
    have none_ := List.map_eq_nil_iff.mp (Option.some.inj bare)
    unfold writeMap
    split
    · trivial
    · rw [none_]
      exact rfl
  · next kind =>
    rw [kind] at bare
    obtain ⟨items, hitems, none_⟩ := Option.map_eq_some_iff.mp bare
    obtain rfl : items = [] := by simpa using none_
    rw [writeRepeated, hitems]
    exact rfl
  · next target kind =>
    rw [kind] at bare
    obtain ⟨elem, helem, all⟩ := Option.bind_eq_some_iff.mp bare
    rw [writeLinks, helem, zipIdx_of_mapM_nil all]
    exact rfl
  · next columns kind =>
    rw [kind] at bare
    obtain ⟨elem, helem, all⟩ := Option.bind_eq_some_iff.mp bare
    rw [writeComposed, helem, zipIdx_of_mapM_nil all]
    exact rfl

end Returned

end Harpia
