import Harpia.DaoUpdateTree
import Harpia.Lib.ProtoKeys

namespace Harpia

open Sqlite Proto

/-- What a program may end with. -/
abbrev Returns {α : Type} (program : Cursor α) (Q : α → Prop) : Prop :=
  program.Ensures (fun _ => True) Q

section Write

variable {E : DaoEnv} {p : KeyProvider} {dao : Dao} {recur : String → Msg → Cursor Msg} {msg : Msg}

/-- The row gives a message its key at most. -/
theorem insertRow_rekeys (assign : Int → Option Int) (msg : Msg) :
    Returns (insertRow E p dao assign msg) fun msg' => msg.Rekeyed pk msg' := by
  refine Calls.ensures_bind (Calls.ensures_ofOption fun key _ => ?_)
  have bound : ∀ columns, (Calls.collect (bindColumn E p dao msg) columns).Only fun _ => True :=
    fun columns => .collect fun col _ => bindColumn_only trivial msg col
  split
  · refine Calls.ensures_bind (Calls.ensures_mono (bound _) fun cells _ => ?_)
    refine Calls.ensures_bind (Calls.ensures_mono (Calls.Only.send trivial) fun row _ => ?_)
    split
    · exact Calls.ensures_bind (Calls.ensures_ofOption fun k _ => Msg.rekeyed_set_key pk msg _)
    · trivial
  · refine Calls.ensures_bind (Calls.ensures_mono (bound _) fun cells _ => ?_)
    exact Calls.ensures_bind ⟨trivial, fun row => Msg.Rekeyed.refl pk msg⟩

theorem storeChild_rekeys (links : LinksMessages E dao) {col : DaoColumn} (hcol : col ∈ dao.columns)
    (rekeys : ∀ target m, col.fk = some target → Returns (recur target m) fun m' => m.Rekeyed pk m') :
    Returns (storeChild E dao recur msg col) fun msg' => msg.Rekeyed pk msg' := by
  unfold storeChild
  split
  · exact Msg.Rekeyed.refl pk msg
  next target fk =>
    refine Calls.ensures_bind (Calls.ensures_ofOption fun owner place => ?_)
    refine Calls.ensures_bind (Calls.ensures_ofOption fun set there => ?_)
    cases set with
    | false => exact Msg.Rekeyed.refl pk msg
    | true =>
      refine Calls.ensures_bind (Calls.ensures_mono (rekeys target _ fk) fun child same => ?_)
      refine Calls.ensures_ofOption fun msg' hm => ?_
      obtain ⟨c, held⟩ := sub?_of_hasField links hcol (by rw [fk]; rfl) place there
      obtain ⟨here, _, _⟩ := ownerOf_alike (.refl msg) place
      rw [held, Option.getD_some] at same
      rw [here] at held
      apply Msg.rekeyed_modify (Msg.at?_of_sub? held) _ hm
      intro o' ho'
      cases ho'
      exact Msg.rekeyed_set_sub held same

theorem writeLinks_rekeys {recur : Msg → Cursor Msg}
    (rekeys : ∀ m, Returns (recur m) fun m' => m.Rekeyed pk m') (key : Value) (child : DaoChild)
    (field : Variable) (m : Msg) :
    Returns (writeLinks E dao recur key child field m) fun items =>
      List.Forall₂ (Msg.Rekeyed pk) (m.elements field.name) items := by
  refine Calls.ensures_bind (Calls.ensures_ofOption fun elem _ => ?_)
  have each : ∀ e ∈ (m.elements field.name).zipIdx, Returns (do
      let item ← recur e.1
      let k ← Calls.ofOption (bindValue E.schema.types elem item pk)
      let _ ← Cursor.insert child.table
        [ownerCell dao key, ordinalCell e.2, childCell dao child "value" k]
      return item) fun item => e.1.Rekeyed pk item := by
    intro e _
    refine Calls.ensures_bind (Calls.ensures_mono (rekeys e.1) fun item same => ?_)
    refine Calls.ensures_bind (Calls.ensures_ofOption fun k _ => ?_)
    exact ⟨trivial, fun _ => same⟩
  apply Calls.ensures_mono (Calls.ensures_collect_each each)
  intro items all
  rw [← List.zipIdx_map_fst 0 (m.elements field.name), List.forall₂_map_left_iff]
  exact all

theorem insertChild_rekeys {child : DaoChild} {key : Value}
    (rekeys : ∀ target m, child.kind = .repeated (some target) →
      Returns (recur target m) fun m' => m.Rekeyed pk m') :
    Returns (insertChild E dao recur key msg child) fun msg' => msg.Rekeyed pk msg' := by
  have same : ∀ {α : Type} {program : Cursor α}, program.Only (fun _ => True) →
      Returns (program >>= fun _ => (pure msg : Cursor Msg)) fun msg' => msg.Rekeyed pk msg' :=
    fun only => Calls.ensures_bind (Calls.ensures_mono only fun _ _ => Msg.Rekeyed.refl pk msg)
  refine Calls.ensures_bind (Calls.ensures_ofOption fun base place => ?_)
  refine Calls.ensures_bind (Calls.ensures_ofOption fun field found => ?_)
  split
  · exact same (writeMap_only (fun _ => trivial) field base.2)
  · exact same (writeRepeated_only (fun _ => trivial) field base.2)
  next target kind =>
    refine Calls.ensures_bind (Calls.ensures_mono
      (writeLinks_rekeys (fun m => rekeys target m kind) key child field base.2) fun items all => ?_)
    split
    · exact Msg.Rekeyed.refl pk msg
    next some_ =>
      refine Calls.ensures_ofOption fun msg' hm => ?_
      obtain ⟨here, _, _⟩ := ownerOf_alike (.refl msg) place
      have held : (msg.inner child.path.owner).elements field.name ≠ [] := by
        intro none_
        rw [here, none_] at all
        cases all
        simp at some_
      rw [here] at all
      apply Msg.rekeyed_modify (Msg.at?_of_elements held) _ hm
      intro o' ho'
      cases ho'
      exact Msg.rekeyed_set_elements held all
  next columns kind => exact same (writeComposed_only (fun _ => trivial) columns field base.2)

end Write

/-- `_create` returns the message as it was given it, but for the keys. -/
theorem createIn_rekeys {E : DaoEnv} {root : Dao}
    (links : ∀ d, StoredThrough E.schema root d → LinksMessages E d) (fuel : Nat) (p : KeyProvider)
    {d : Dao} (hd : StoredThrough E.schema root d) (msg : Msg) :
    Returns (createIn E fuel p d msg) fun msg' => msg.Rekeyed pk msg' := by
  induction fuel generalizing p d msg with
  | zero => trivial
  | succ fuel ih =>
    have nested : ∀ target m, (∀ d', daoClass E.schema target = some d' → StoresThrough E.schema d d') →
        Returns (do
          let d' ← Calls.ofOption (daoClass E.schema target)
          createIn E fuel E.defaultProvider d' m) fun m' => m.Rekeyed pk m' := fun target m through =>
      Calls.ensures_bind (Calls.ensures_ofOption fun d' class_ =>
        ih _ (hd.tail (through d' class_)) m)
    refine Calls.ensures_bind (Calls.ensures_mono (Calls.ensures_fold (Msg.Rekeyed.refl pk msg)
      fun col hcol m same => ?_) fun m same => ?_)
    · apply Calls.ensures_mono (storeChild_rekeys (links d hd) hcol fun target m fk =>
        nested target m fun d' class_ => .column hcol fk class_)
      exact fun m' same' => same.trans same'
    refine Calls.ensures_bind (Calls.ensures_mono (insertRow_rekeys setKey m) fun m' same' => ?_)
    refine Calls.ensures_bind (Calls.ensures_ofOption fun owner _ => ?_)
    refine Calls.ensures_fold (same.trans same') fun child hc m same => ?_
    apply Calls.ensures_mono (insertChild_rekeys fun target m kind =>
      nested target m fun d' class_ => .element hc kind class_)
    exact fun m' same' => same.trans same'

end Harpia
