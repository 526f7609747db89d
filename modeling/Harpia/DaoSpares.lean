import Harpia.DaoCreateFrame

namespace Harpia

open Text Sqlite Proto Attempt

section Places

variable {S : Schema} {root d : Dao} {keys : Dao → Value → Prop} {db db' : Db} {key : Value}
  (separate : SeparateTables S root) (hd : StoredThrough S root d)

include separate hd

/-- Where a table is written for one key, what is stored under the others stays. -/
theorem undisturbed_written {place : String × String} (hp : place ∈ d.places)
    (written : WrittenAt place key db db') (columns : ∀ n, db'.columns n = db.columns n)
    (spared : ¬ keys d key) : Undisturbed S root keys db db' := by
  have apart : ∀ {d' : Dao} {k : Value}, d = d' → keys d' k → k ≠ key := by
    rintro d' k rfl there rfl
    exact spared there
  refine ⟨columns, fun d' hd' k hk there => ?_, fun d' hd' k _ there place' hp' => ?_⟩
  · by_cases same : fold d'.table = fold place.1
    · obtain ⟨own, rfl⟩ := separate.place_eq hd hd' hp d'.row_place same.symm
      exact Db.values_of_others written.others columns (apart own there) hk
    · rwa [Db.values_congr (written.away _ same)]
  · by_cases same : fold place'.1 = fold place.1
    · obtain ⟨own, rfl⟩ := separate.place_eq hd hd' hp hp' same.symm
      exact Db.chosen_of_others written.others columns (apart own there)
    · exact Db.chosen_congr (written.away _ same) _ _

end Places

/-- The request, where it is done, leaves what is stored under the keys alone. -/
def Sparing (S : Schema) (root : Dao) (keys : Dao → Value → Prop) (r : Request) : Prop :=
  ∀ s out, Request.exec r s = some out → Undisturbed S root keys s.db out.2.db

section Requests

variable {S : Schema} {root d : Dao} {keys : Dao → Value → Prop} {key : Value}
  (separate : SeparateTables S root) (hd : StoredThrough S root d)

theorem sparing_tokenBytes : Sparing S root keys .tokenBytes := by
  intro s out done
  cases Option.some.inj done
  exact .refl _ _ _ _

include separate hd

theorem sparing_insert {dao : Dao} {child : DaoChild} (hc : child ∈ d.children) (hk : key ≠ .null)
    (spared : ¬ keys d key) (cells : List Cell) :
    Sparing S root keys (.insert child.table (ownerCell dao key :: cells)) := by
  intro s out done
  obtain ⟨r, inserted, rfl⟩ := Option.map_eq_some_iff.mp done
  have given : r.2.get "owner" = key := Db.insert_first inserted hk
  apply (undisturbed_insert separate hd (Dao.child_place hc) inserted given hk).mono
  rintro d' k there ⟨rfl, rfl⟩
  exact spared there

theorem sparing_update {cells : List Cell} (keyless : ∀ c ∈ cells, fold pk ≠ fold c.column)
    (spared : ¬ keys d key) : Sparing S root keys (.update d.table cells key) := by
  intro s out done
  obtain ⟨r, updated, rfl⟩ := Option.map_eq_some_iff.mp done
  obtain ⟨_, _, _, _, written⟩ := Db.update_rewritten updated
  have others := Db.others_update (fun e he => by
    obtain ⟨c, hc, rfl⟩ := List.mem_map.mp he
    exact keyless c hc) updated
  exact undisturbed_written separate hd d.row_place ⟨others, written.others⟩ written.columns_all spared

theorem sparing_delete {table column : String} (hp : (table, column) ∈ d.places)
    (spared : ¬ keys d key) : Sparing S root keys (.delete table column key) := by
  intro s out done
  obtain ⟨r, deleted, rfl⟩ := Option.map_eq_some_iff.mp done
  obtain ⟨_, _, _, written⟩ := Db.delete_rewritten deleted
  exact undisturbed_written separate hd hp ⟨Db.others_delete deleted, written.others⟩
    written.columns_all spared

end Requests

/-- What is stored under the keys is as it was in `start`. -/
def Steady (S : Schema) (root : Dao) (keys : Dao → Value → Prop) (start : Db) (s : DbSession) : Prop :=
  Undisturbed S root keys start s.db

section Calls

variable {E : DaoEnv} {root : Dao} {exec : (r : Request) → DbSession → Option (Answer r × DbSession)}
  {keys : Dao → Value → Prop} {start : Db} (separate : SeparateTables E.schema root)
  (keyed : ∀ d, StoredThrough E.schema root d → Keyed d)
  (links : ∀ d, StoredThrough E.schema root d → LinksMessages E d) (raises : MayRaise exec)

theorem spared_of_only {S : Schema} {α : Type}
    {exec : (r : Request) → DbSession → Option (Answer r × DbSession)} (raises : MayRaise exec)
    {program : Cursor α} (only : program.Only (Sparing S root keys)) :
    Triple (Steady S root keys start) (program.attempt exec) (fun _ => Steady S root keys start)
      fun _ => True :=
  have kept : Triple (Steady S root keys start) (program.attempt exec)
      (fun _ => Steady S root keys start) (Steady S root keys start) := Calls.triple_only
    (fun i s r s' sparing hs answered => hs.trans (sparing s (r, s') (raises i s _ answered))) only
  ⟨fun hs he => kept.ends hs he, fun _ _ => trivial⟩

include separate keyed links raises

/-- `_update` writes for the keys of the messages that it goes through, and for no others. -/
theorem updateIn_spares (fuel : Nat) (p : KeyProvider) {d : Dao} (hd : StoredThrough E.schema root d)
    (msg : Msg) (spared : ∀ d' m, Updates E d msg d' m → ∀ key, pkValue E d' m = some key → ¬ keys d' key) :
    Triple (Steady E.schema root keys start) ((updateIn E fuel p d msg).attempt exec)
      (fun _ => Steady E.schema root keys start) fun _ => True := by
  induction fuel generalizing p d msg with
  | zero => exact triple_fail fun _ _ => trivial
  | succ fuel ih =>
    have nested : ∀ target m, (∀ d', daoClass E.schema target = some d' →
        StoresThrough E.schema d d' ∧ ∀ d'' m', Updates E d' m d'' m' → ∀ key,
          pkValue E d'' m' = some key → ¬ keys d'' key) →
        Triple (Steady E.schema root keys start) ((do
          let d' ← Calls.ofOption (daoClass E.schema target)
          let _ ← updateIn E fuel E.defaultProvider d' m
          return m : Cursor Msg).attempt exec) (fun _ => Steady E.schema root keys start)
          fun _ => True := fun target m through =>
      Calls.triple_some_bind (fun d' hd' => Calls.triple_bind
        (ih _ (hd.tail (through d' hd').1) m (through d' hd').2)
        fun _ => triple_ret fun _ hs => hs) fun _ _ => trivial
    -- an alike message leads to messages with the same keys
    have below : ∀ {m : Msg}, msg.Alike m → ∀ d' x, Updates E d m d' x → ∀ key,
        pkValue E d' x = some key → ¬ keys d' key := by
      intro m same d' x updates key hkey
      obtain ⟨x₀, updates₀, like⟩ := updates.alike same
      rw [pkValue_alike like] at hkey
      exact spared d' x₀ updates₀ key hkey
    refine Calls.triple_bind (Q := fun _ => Steady E.schema root keys start) ?_ fun _ => ?_
    · refine triple_mono (Calls.triple_fold (fun _ m s => msg.Alike m ∧ Steady E.schema root keys start s)
        (fun done m col rest all => triple_pure fun same => ?_) msg)
        (fun s hs => ⟨.refl msg, hs⟩) fun _ _ hs => hs.2
      have hcol : col ∈ d.columns := all ▸ List.mem_append_right done List.mem_cons_self
      refine triple_mono (Calls.triple_and (?_ : Triple (Steady E.schema root keys start) _
        (fun _ => Steady E.schema root keys start) _) (storeChild_alike (links d hd) hcol
          fun target m' _ => updateChild_returns fuel target m')) (fun _ hs => hs)
        fun m' s hs => ⟨same.trans hs.1, hs.2⟩
      exact storeChild_keeps fun target owner fk place set => nested target _ fun d' hd' =>
        ⟨.column hcol fk hd', fun d'' m' updates => below same d'' m'
          (.column hcol fk hd' place set updates)⟩
    refine Calls.triple_bind (Q := fun cells s =>
      (∀ c ∈ cells, fold pk ≠ fold (Cell.column c)) ∧ Steady E.schema root keys start s) ?_
      fun cells => triple_pure fun keyless => ?_
    · have kept : Triple (Steady E.schema root keys start)
          ((Calls.collect (bindColumn E p d msg) (keylessColumns d)).attempt exec)
          (fun _ => Steady E.schema root keys start) fun _ => True :=
        spared_of_only raises (.collect fun col _ => bindColumn_only sparing_tokenBytes msg col)
      refine triple_mono (Calls.triple_and kept (Calls.ensures_collect fun col hcol =>
        Calls.ensures_mono (bindColumn_column msg col) fun cell named => ?_)) (fun _ hs => hs)
        fun _ _ hs => hs
      rw [named]
      exact separate.keyless hd (keyed d hd) hcol
    refine Calls.triple_some_bind (fun key hkey => ?_) fun _ _ => trivial
    have given := (keyed d hd).key_ne_null hkey
    have away := spared d msg (.self d msg) key hkey
    refine Calls.triple_bind (spared_of_only raises
      (.send (sparing_update separate hd keyless away))) fun count => ?_
    refine Calls.triple_bind (Q := fun _ => Steady E.schema root keys start) ?_
      fun _ => triple_ret fun _ hs => hs
    refine triple_mono (Calls.triple_fold (fun _ m s => msg.Alike m ∧ Steady E.schema root keys start s)
      (fun done m child rest all => triple_pure fun same => ?_) msg)
      (fun s hs => ⟨.refl msg, hs⟩) fun _ _ hs => hs.2
    have hc : child ∈ d.children := all ▸ List.mem_append_right done List.mem_cons_self
    have cleared : Sparing E.schema root keys (.delete child.table "owner" key) :=
      sparing_delete separate hd (Dao.child_place hc) away
    refine Calls.triple_bind (spared_of_only raises (.send cleared)) fun _ => ?_
    refine triple_mono (Calls.triple_and (?_ : Triple (Steady E.schema root keys start) _
      (fun _ => Steady E.schema root keys start) _) (insertChild_alike fun target m' _ =>
        updateChild_returns fuel target m')) (fun _ hs => hs)
      fun m' s hs => ⟨same.trans hs.1, hs.2⟩
    have step : ∀ r s a s', Sparing E.schema root keys r → Steady E.schema root keys start s →
        exec r s = some (a, s') → Steady E.schema root keys start s' := by
      intro r s a s' sparing hs answered
      exact hs.trans (sparing s (a, s') (raises r s _ answered))
    exact insertChild_keeps step (sparing_insert separate hd hc given away)
      fun target base kind place item hitem => nested target item fun d' hd' =>
        ⟨.element hc kind hd', fun d'' m' updates => below same d'' m'
          (.element hc kind hd' place hitem updates)⟩

omit keyed links in
/-- `remove` deletes the rows of one key. -/
theorem removeIn_spares {d : Dao} (hd : StoredThrough E.schema root d) {key : Value}
    (spared : ¬ keys d key) :
    Triple (Steady E.schema root keys start) ((removeIn d key).attempt exec)
      (fun _ => Steady E.schema root keys start) fun _ => True := by
  have row : Sparing E.schema root keys (.delete d.table pk key) :=
    sparing_delete separate hd d.row_place spared
  have children : ∀ child ∈ d.children, Sparing E.schema root keys (.delete child.table "owner" key) :=
    fun child hc => sparing_delete separate hd (Dao.child_place hc) spared
  refine Calls.triple_bind (spared_of_only raises (.send row)) fun count => ?_
  refine Calls.triple_bind (spared_of_only raises (.collect fun child hc => .send (children child hc)))
    fun _ => ?_
  exact triple_ret fun _ hs => hs

end Calls

end Harpia
