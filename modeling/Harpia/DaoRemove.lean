import Harpia.DaoCreateRuns

namespace Harpia

open Text Sqlite Proto Attempt

/-- Nothing is stored under the key: its row is not there, nor child rows of it in some tables. All
else is as it was at the start. -/
structure Gone (d : Dao) (key : Value) (start : Db) (done : List DaoChild) (db : Db) : Prop where
  live : (db.columns d.table).isSome
  row : key ∉ db.values d.table pk
  children : ∀ child ∈ done, key ∉ db.values child.table "owner"
  pruned : Db.Pruned ((d.table, pk) :: done.map fun child => (child.table, "owner")) key start db

section Remove

variable {d : Dao} {key : Value} {start : Db} {done : List DaoChild} {db db' : Db} {count : Nat}

theorem Gone.snoc {child : DaoChild} (given : key ≠ .null) (h : Gone d key start done db)
    (deleted : db.delete child.table "owner" key = some (db', count)) :
    Gone d key start (done ++ [child]) db' where
  live := by
    obtain ⟨_, _, _, written⟩ := Db.delete_rewritten deleted
    rw [written.columns_all]
    exact h.live
  -- a later delete brings nothing back
  row there := h.row (Db.mem_of_values_delete deleted there)
  children c hc there := by
    rcases List.mem_append.mp hc with hc | hc
    · exact h.children c hc (Db.mem_of_values_delete deleted there)
    · rw [List.mem_singleton.mp hc] at there
      exact Db.not_mem_values_delete deleted given there
  pruned := by
    rw [List.map_append, List.map_singleton, ← List.cons_append]
    exact h.pruned.delete deleted

/-- A delete finds a row where one has the value. -/
theorem delete_found {table column : String} {v : Value} (given : v ≠ .null)
    (deleted : db.delete table column v = some (db', count)) :
    0 < count ↔ v ∈ db.values table column := by
  obtain ⟨t, ht, rfl, _⟩ := Db.delete_rewritten deleted
  have found : t.select column v = db.chosen table column v := (Db.chosen_eq ht).symm
  rw [found]
  constructor
  · intro some_
    obtain ⟨r, hr⟩ := List.exists_mem_of_length_pos some_
    exact Db.mem_values_of_chosen hr
  · intro there
    rw [Db.values_eq ht] at there
    obtain ⟨r, hr, same⟩ := List.mem_map.mp there
    apply List.length_pos_of_mem
    rw [Db.chosen_eq ht]
    apply List.mem_filter.mpr
    exact ⟨hr, by simp [Table.hits, given, same]⟩

theorem removeIn_gone {exec : (r : Request) → DbSession → Option (Answer r × DbSession)}
    (raises : MayRaise exec) (given : key ≠ .null) (start : Db) :
    Triple (fun s => s.db = start) ((removeIn d key).attempt exec)
      (fun found s => (found = true ↔ key ∈ start.values d.table pk) ∧ Gone d key start d.children s.db)
      fun _ => True := by
  refine Calls.triple_bind (Q := fun count s => (0 < count ↔ key ∈ start.values d.table pk) ∧
    Gone d key start [] s.db) ?_ fun count => triple_pure fun counted => ?_
  · apply Calls.triple_send
    · intro s count s' same answered
      obtain ⟨out, deleted, pair⟩ := Option.map_eq_some_iff.mp (raises _ _ _ answered)
      obtain ⟨rfl, rfl⟩ := Prod.mk.inj pair
      rw [same] at deleted
      have live : (out.1.columns d.table).isSome := by
        obtain ⟨t, ht, _, written⟩ := Db.delete_rewritten deleted
        rw [written.columns_all, Db.columns_of_get? ht, Option.isSome_some]
      exact ⟨delete_found given deleted, live, Db.not_mem_values_delete deleted given,
        fun child hc => (by cases hc), (Db.Pruned.refl key start).delete deleted⟩
    · exact fun _ _ _ => trivial
  · refine Calls.triple_bind (Q := fun _ s => Gone d key start d.children s.db) ?_ fun _ => ?_
    · refine triple_mono (Calls.triple_collect (fun done _ s => Gone d key start done s.db) ?_)
        (fun _ hs => hs) fun _ _ hs => hs
      intro done out child rest all
      apply Calls.triple_send
      · intro s count s' hs answered
        obtain ⟨out, deleted, pair⟩ := Option.map_eq_some_iff.mp (raises _ _ _ answered)
        obtain ⟨rfl, rfl⟩ := Prod.mk.inj pair
        exact hs.snoc given deleted
      · exact fun _ _ _ => trivial
    · apply triple_ret
      intro s hs
      exact ⟨by rw [decide_eq_true_eq]; exact counted, hs⟩

end Remove

section Removed

variable {E : DaoEnv} {d : Dao} {exec : (r : Request) → DbSession → Option (Answer r × DbSession)}

/-- `remove` answers whether a row had the key. Afterwards no table of the DAO has anything under it
and `read` finds nothing; but for the rows under it, every table of the database is as it was. -/
theorem removed_is_gone (raises : MayRaise exec) {fuel : Nat} {p : KeyProvider} {key : Int}
    {s s' : DbSession} {found : Bool}
    (removed : daoCall exec E fuel p d (.remove (.int key)) s = (some found, s')) :
    (found = true ↔ Value.int key ∈ s.db.values d.table pk) ∧
      (∀ place ∈ d.places, Value.int key ∉ s'.db.values place.1 place.2) ∧
      (∀ (R : ReadEnv) (budget : Nat) (q : KeyProvider) (out : Msg),
        readInto R s'.db (budget + 1) q d (.int key) out = some (false, out)) ∧
      Db.Pruned d.places (.int key) s.db s'.db := by
  have given : Value.int key ≠ .null := by simp
  have ended : (removeIn d (.int key)).attempt exec s = (some found, s') := by
    unfold daoCall at removed
    cases done : (DaoCall.program E fuel p d (.remove (.int key))).attempt exec s with
    | mk result s₁ =>
      rw [done] at removed
      cases result with
      | none => cases removed
      | some found₁ =>
        cases removed
        exact done
  have gone := (removeIn_gone raises given s.db).ends rfl (congrArg Prod.fst ended)
  rw [ended] at gone
  obtain ⟨counted, gone⟩ := gone
  refine ⟨counted, ?_, ?_, gone.pruned⟩
  · intro place hp
    rcases List.mem_cons.mp hp with rfl | hp
    · exact gone.row
    · obtain ⟨child, hc, rfl⟩ := List.mem_map.mp hp
      exact gone.children child hc
  · intro R budget q out
    obtain ⟨columns, live⟩ := Option.isSome_iff_exists.mp gone.live
    obtain ⟨t', ht', _⟩ := Option.map_eq_some_iff.mp live
    have none_ : t'.select pk (.int key) = [] := by
      have missing := Db.chosen_eq_nil gone.row
      rwa [Db.chosen_eq ht'] at missing
    have scanned : R.scan [] = [] := List.perm_nil.mp (R.scan_perm [])
    rw [readInto, ht', Option.bind_eq_bind, Option.bind_some, none_, scanned]
    rfl

end Removed

/-- Note 2 and its tags are removed. -/
theorem removed_is_gone_note :
    let removed := daoCall Request.exec taggedNoteEnv 1 (.fresh [7]) taggedNoteDao (.remove (.int 2))
      noteStore
    (true = true ↔ Value.int 2 ∈ noteStore.db.values taggedNoteDao.table pk) ∧
      (∀ place ∈ taggedNoteDao.places, Value.int 2 ∉ removed.2.db.values place.1 place.2) ∧
      (∀ (R : ReadEnv) (budget : Nat) (q : KeyProvider) (out : Msg),
        readInto R removed.2.db (budget + 1) q taggedNoteDao (.int 2) out = some (false, out)) ∧
      Db.Pruned taggedNoteDao.places (.int 2) noteStore.db removed.2.db := by
  intro removed
  have answered : removed.1 = some true := by decide +kernel
  exact removed_is_gone (E := taggedNoteEnv) (fun _ _ _ h => h)
    (Prod.ext answered rfl : removed = (some true, removed.2))

end Harpia
