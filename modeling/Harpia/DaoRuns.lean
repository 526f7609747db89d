import Harpia.DaoOwners

namespace Harpia

open Sqlite Proto Attempt

section Programs

variable {S : Schema} {root d : Dao} {held : Set (String × Value)} {key : Value}

/-- The request, where it is done, keeps the invariant. -/
def Keeping (S : Schema) (root : Dao) (held : Set (String × Value)) (r : Request) : Prop :=
  ∀ s out, Standing S root held s.db → Request.exec r s = some out → Standing S root held out.2.db

/-- The states in which the invariant holds. -/
def Stands (S : Schema) (root : Dao) (held : Set (String × Value)) (s : DbSession) : Prop :=
  Standing S root held s.db

theorem keeping_tokenBytes : Keeping S root held .tokenBytes := by
  intro s out h done
  cases Option.some.inj done
  exact h

section Places

variable (separate : SeparateTables S root) (hd : StoredThrough S root d)

include separate hd

theorem keeping_insert_child {dao : Dao} {child : DaoChild} (hc : child ∈ d.children)
    (hk : key ≠ .null) (owner : (d.table, key) ∈ held) (cells : List Cell) :
    Keeping S root held (.insert child.table (ownerCell dao key :: cells)) := by
  intro s out h done
  obtain ⟨r, inserted, rfl⟩ := Option.map_eq_some_iff.mp done
  have given : r.2.get "owner" = key := Db.insert_first inserted hk
  exact h.insert_child separate hd hc inserted given hk owner

theorem keeping_update {cells : List Cell} (keyless : ∀ c ∈ cells, fold pk ≠ fold c.column) :
    Keeping S root held (.update d.table cells key) := by
  intro s out h done
  obtain ⟨r, updated, rfl⟩ := Option.map_eq_some_iff.mp done
  refine h.update_row separate hd (fun e he => ?_) updated
  obtain ⟨c, hc, rfl⟩ := List.mem_map.mp he
  exact keyless c hc

theorem keeping_delete_child {child : DaoChild} (hc : child ∈ d.children) :
    Keeping S root held (.delete child.table "owner" key) := by
  intro s out h done
  obtain ⟨r, deleted, rfl⟩ := Option.map_eq_some_iff.mp done
  exact h.delete_child separate hd hc deleted

end Places

variable {exec : (r : Request) → DbSession → Option (Answer r × DbSession)} {α : Type}

theorem stands_of_only (raises : MayRaise exec) {program : Cursor α}
    (only : program.Only (Keeping S root held)) :
    Triple (Stands S root held) (program.attempt exec) (fun _ => Stands S root held) fun _ => True :=
  have kept : Triple (Stands S root held) (program.attempt exec) (fun _ => Stands S root held)
      (Stands S root held) := Calls.triple_only
    (fun i s r s' keeps hs answered => keeps s (r, s') hs (raises i s _ answered)) only
  ⟨fun hs he => kept.ends hs he, fun _ _ => trivial⟩

end Programs

section Writing

variable {E : DaoEnv} {p : KeyProvider} {dao : Dao}
  {exec : (r : Request) → DbSession → Option (Answer r × DbSession)} {I : DbSession → Prop}

/-- Where a child is set, its DAO is called. -/
theorem storeChild_keeps {recur : String → Msg → Cursor Msg} {col : DaoColumn} {msg : Msg}
    (inner : ∀ target owner, col.fk = some target →
      ownerOf E.schema.types col.path.owner dao.message msg = some owner →
      hasField E.schema.types owner.1 owner.2 col.path.field = some true →
      Triple I ((recur target ((owner.2.sub? col.path.field).getD .empty)).attempt exec)
        (fun _ => I) fun _ => True) :
    Triple I ((storeChild E dao recur msg col).attempt exec) (fun _ => I) fun _ => True := by
  unfold storeChild
  split
  · exact triple_ret fun _ hs => hs
  · next target fk =>
    refine Calls.triple_some_bind (fun owner place => ?_) fun _ _ => trivial
    refine Calls.triple_some_bind (fun set there => ?_) fun _ _ => trivial
    cases set with
    | false => exact triple_ret fun _ hs => hs
    | true =>
      refine Calls.triple_bind (inner target owner fk place there) fun child => ?_
      exact Calls.triple_ofOption (fun _ _ _ hs => hs) fun _ _ => trivial

/-- The elements of a repeated message are stored one by one. -/
theorem writeLinks_keeps {P : Request → Prop}
    (step : ∀ r s a s', P r → I s → exec r s = some (a, s') → I s') {child : DaoChild} {owner : Value}
    (inserts : ∀ cells, P (.insert child.table (ownerCell dao owner :: cells)))
    {recur : Msg → Cursor Msg} {field : Variable} {m : Msg}
    (inner : ∀ item ∈ m.elements field.name,
      Triple I ((recur item).attempt exec) (fun _ => I) fun _ => True) :
    Triple I ((writeLinks E dao recur owner child field m).attempt exec) (fun _ => I)
      fun _ => True := by
  refine Calls.triple_some_bind (fun sub _ => ?_) fun _ _ => trivial
  refine Calls.triple_collect (fun _ _ => I) fun done out e rest all => ?_
  have item : e.1 ∈ m.elements field.name := by
    have mem : e ∈ (m.elements field.name).zipIdx := by
      rw [all]
      exact List.mem_append_right done List.mem_cons_self
    obtain ⟨_, _, value⟩ := List.mem_zipIdx mem
    rw [value]
    exact List.getElem_mem _
  refine Calls.triple_bind (inner e.1 item) fun item => ?_
  refine Calls.triple_some_bind (fun key _ => ?_) fun _ _ => trivial
  refine Calls.triple_bind (Q := fun _ => I) ?_ fun _ => triple_ret fun _ hs => hs
  exact Calls.triple_send (fun s r s' hs answered => step _ s r s' (inserts _) hs answered)
    fun _ _ _ => trivial

theorem insertChild_keeps {P : Request → Prop}
    (step : ∀ r s a s', P r → I s → exec r s = some (a, s') → I s') {child : DaoChild} {owner : Value}
    (inserts : ∀ cells, P (.insert child.table (ownerCell dao owner :: cells)))
    {recur : String → Msg → Cursor Msg} {msg : Msg}
    (inner : ∀ target base, child.kind = .repeated (some target) →
      ownerOf E.schema.types child.path.owner dao.message msg = some base →
      ∀ item ∈ base.2.elements child.path.field,
        Triple I ((recur target item).attempt exec) (fun _ => I) fun _ => True) :
    Triple I ((insertChild E dao recur owner msg child).attempt exec) (fun _ => I)
      fun _ => True := by
  have only : ∀ {α : Type} {program : Cursor α}, program.Only P →
      Triple I (program.attempt exec) (fun _ => I) fun _ => True := fun h =>
    have kept := Calls.triple_only step h
    ⟨fun hs he => kept.ends hs he, fun _ _ => trivial⟩
  refine Calls.triple_some_bind (fun base place => ?_) fun _ _ => trivial
  refine Calls.triple_some_bind (fun field found => ?_) fun _ _ => trivial
  split
  · exact Calls.triple_bind (only (writeMap_only inserts field base.2)) fun _ =>
      triple_ret fun _ hs => hs
  · exact Calls.triple_bind (only (writeRepeated_only inserts field base.2)) fun _ =>
      triple_ret fun _ hs => hs
  · next target kind =>
    have named : field.name = child.path.field := by simpa using List.find?_some found
    refine Calls.triple_bind (writeLinks_keeps step inserts fun item hi =>
      inner target base kind place item (named ▸ hi)) fun items => ?_
    split
    · exact triple_ret fun _ hs => hs
    · exact Calls.triple_ofOption (fun _ _ _ hs => hs) fun _ _ => trivial
  · next columns kind =>
    exact Calls.triple_bind (only (writeComposed_only inserts columns field base.2)) fun _ =>
      triple_ret fun _ hs => hs

end Writing

end Harpia
