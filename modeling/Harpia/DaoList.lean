import Harpia.DaoCreateRuns
import Harpia.Lib.SqlitePages

namespace Harpia

open Text Sqlite Proto

section List

variable (R : ReadEnv) (db : Db)

/-- `_NO_LIMIT`. -/
def noLimit : Int := 2 ^ 63 - 1

/-- An integer that `sqlite3` binds; it raises for one that needs more than 64 bits. -/
def binds (n : Int) : Bool := -2 ^ 63 ≤ n && n < 2 ^ 63

/-- What `list` takes of the rows in key order: all of them, or one page. -/
def listed {α : Type} (offset limit : Option Int) (xs : List α) : Option (List α) :=
  if offset = none ∧ limit = none then some xs
  else if binds (limit.getD noLimit) ∧ binds (offset.getD 0) then
    some (page (limit.getD noLimit) (offset.getD 0) xs)
  else none

/-- The rows of the main table in the order of `LIST_SQL`. -/
def keyOrder (t : Table) : List Row :=
  (R.scan t.rows).mergeSort fun r r' => R.order (t.lookup r pk) (t.lookup r' pk)

/-- `list`, within a recursion budget. -/
def daoList : Nat → KeyProvider → Dao → Option Int → Option Int → Option (List Msg)
  | 0, _, _, _, _ => none
  | fuel + 1, p, dao, offset, limit => do
    let t ← db.get? dao.table
    let recur := fun target key m => do
      let d ← daoClass R.schema target
      let (_, m) ← readInto R db fuel R.defaultProvider d key m
      return m
    let rows ← listed offset limit (keyOrder R t)
    rows.mapM fun r => loadRow R db p dao recur t r .empty

variable {R : ReadEnv} {db : Db}

theorem listed_map {α β : Type} (f : α → β) (offset limit : Option Int) (xs : List α) :
    listed offset limit (xs.map f) = (listed offset limit xs).map (List.map f) := by
  unfold listed
  split_ifs
  · rfl
  · rw [Option.map_some, page_map]
  · rfl

theorem listed_subset {α : Type} {offset limit : Option Int} {xs ys : List α}
    (h : listed offset limit xs = some ys) : ys ⊆ xs := by
  unfold listed at h
  split_ifs at h
  · exact Option.some.inj h ▸ List.Subset.refl xs
  · exact Option.some.inj h ▸ (page_sublist _ _ xs).subset

/-- The table as it is made: its key is an `INTEGER PRIMARY KEY`. -/
def IntegerKey (db : Db) (table : String) : Prop :=
  ∃ cs, db.columns table = some cs ∧ ∃ c ∈ cs, fold c.name = fold pk ∧ c.pk

section Table

variable {t : Table} {c : ColumnDef} (hc : c ∈ t.columns) (keyed : c.pk) (named : fold c.name = fold pk)

theorem keyOrder_perm (R : ReadEnv) (t : Table) : (keyOrder R t).Perm t.rows :=
  (List.mergeSort_perm _ _).trans (R.scan_perm t.rows)

include hc keyed named

/-- The keys of the rows, in the order of `LIST_SQL`. -/
theorem exists_keys (R : ReadEnv) : ∃ keys : List Int, keys.Pairwise (· < ·) ∧
    keys.map Value.int = (keyOrder R t).map fun r => t.lookup r pk := by
  have ints : ∀ r ∈ keyOrder R t, ∃ n, t.lookup r pk = .int n := fun r hr =>
    Table.int_of_key hc keyed named ((keyOrder_perm R t).mem_iff.mp hr)
  choose! number number_ using ints
  have same : ((keyOrder R t).map number).map Value.int = (keyOrder R t).map fun r => t.lookup r pk := by
    rw [List.map_map]
    apply List.map_congr_left
    intro r hr
    exact (number_ r hr).symm
  refine ⟨(keyOrder R t).map number, ?_, same⟩
  have nodup : ((keyOrder R t).map fun r => t.lookup r pk).Nodup :=
    ((keyOrder_perm R t).map _).nodup_iff.mpr (Table.nodup_of_key hc keyed named)
  have sorted : (keyOrder R t).Pairwise fun r r' => R.order (t.lookup r pk) (t.lookup r' pk) := by
    apply List.pairwise_mergeSort
    · exact fun a b c => R.order_trans _ _ _
    · exact fun a b => R.order_total _ _
  rw [List.pairwise_map]
  apply ((List.pairwise_map.mp nodup).and sorted).imp_of_mem
  intro r r' hr hr' both
  obtain ⟨apart, before⟩ := both
  rw [number_ r hr, number_ r' hr', R.order_int, decide_eq_true_eq] at before
  have other : number r ≠ number r' := by
    intro same
    rw [number_ r hr, number_ r' hr', same] at apart
    exact apart rfl
  omega

end Table

/-- `list` is `read` of each key, in ascending order; a page is that part of it. -/
theorem list_reads_each (dao : Dao) (keyed : IntegerKey db dao.table) (fuel : Nat) (p : KeyProvider) :
    ∃ keys : List Int, keys.Pairwise (· < ·) ∧ (keys.map Value.int).Perm (db.values dao.table pk) ∧
      (∀ key ∈ keys, ∀ m, readInto R db (fuel + 1) p dao (.int key) .empty ≠ some (false, m)) ∧
      ∀ offset limit, daoList R db (fuel + 1) p dao offset limit =
        (listed offset limit keys).bind fun part => part.mapM fun key =>
          (readInto R db (fuel + 1) p dao (.int key) .empty).map Prod.snd := by
  obtain ⟨cs, hcs, c, hc, named, primary⟩ := keyed
  obtain ⟨t, ht, rfl⟩ := Option.map_eq_some_iff.mp hcs
  obtain ⟨keys, ascending, same⟩ := exists_keys hc primary named R
  let recur : String → Value → Msg → Option Msg := fun target key m => do
    let d ← daoClass R.schema target
    let (_, m) ← readInto R db fuel R.defaultProvider d key m
    return m
  have read : ∀ r ∈ keyOrder R t, readInto R db (fuel + 1) p dao (t.lookup r pk) .empty =
      (loadRow R db p dao recur t r .empty).map fun m => (true, m) := by
    intro r hr
    have found : R.scan (t.select pk (t.lookup r pk)) = [r] := by
      apply List.perm_singleton.mp
      rw [← Table.select_of_key hc primary named ((keyOrder_perm R t).mem_iff.mp hr)]
      exact R.scan_perm _
    rw [readInto, ht, Option.bind_eq_bind, Option.bind_some, found]
    simp only [List.head?_cons]
    show (loadRow R db p dao recur t r .empty).bind _ = _
    cases loadRow R db p dao recur t r .empty <;> rfl
  refine ⟨keys, ascending, ?_, fun key hkey m absent => ?_, fun offset limit => ?_⟩
  · rw [same, Db.values_eq ht]
    exact (keyOrder_perm R t).map _
  · have there : Value.int key ∈ (keyOrder R t).map fun r => t.lookup r pk :=
      same ▸ List.mem_map_of_mem hkey
    obtain ⟨r, hr, lookup⟩ := List.mem_map.mp there
    rw [← lookup, read r hr] at absent
    obtain ⟨m', _, pair⟩ := Option.map_eq_some_iff.mp absent
    cases pair
  · have lookups : (listed offset limit keys).map (List.map Value.int) =
        (listed offset limit (keyOrder R t)).map (List.map fun r => t.lookup r pk) := by
      rw [← listed_map, same, listed_map]
    rw [daoList, ht, Option.bind_eq_bind, Option.bind_some]
    cases rows : listed offset limit (keyOrder R t) with
    | none =>
      rw [rows, Option.map_none, Option.map_eq_none_iff] at lookups
      rw [lookups]
      rfl
    | some rs =>
      rw [rows, Option.map_some] at lookups
      obtain ⟨part, hpart, keysOf⟩ := Option.map_eq_some_iff.mp lookups
      have each : part.mapM (fun key =>
          (readInto R db (fuel + 1) p dao (.int key) .empty).map Prod.snd) =
          (part.map Value.int).mapM fun key =>
            (readInto R db (fuel + 1) p dao key .empty).map Prod.snd := by
        rw [List.mapM_map]
        rfl
      rw [hpart, Option.bind_some, each, keysOf, List.mapM_map]
      apply mapM_congr
      intro r hr
      show _ = (readInto R db (fuel + 1) p dao (t.lookup r pk) .empty).map Prod.snd
      rw [read r (listed_subset rows hr), Option.map_map]
      rw [show (Prod.snd ∘ fun m : Msg => (true, m)) = id from rfl, Option.map_id]
      rfl

/-- Pages of one size, read one after the other until no row is left, are the whole list. -/
theorem pages_make_list (R : ReadEnv) (db : Db) (dao : Dao) (fuel : Nat) (p : KeyProvider)
    {size count : Nat} (some_ : 0 < count) (bound : count * size < 2 ^ 63)
    (enough : (db.values dao.table pk).length ≤ count * size) :
    daoList R db fuel p dao none none = ((List.range count).mapM fun i =>
      daoList R db fuel p dao (some (i * size : Nat)) (some size)).map List.flatten := by
  obtain ⟨n, rfl⟩ : ∃ n, count = n + 1 := ⟨count - 1, by omega⟩
  cases fuel with
  | zero => rw [List.range_succ_eq_map, List.mapM_cons]; rfl
  | succ fuel =>
    cases ht : db.get? dao.table with
    | none =>
      rw [List.range_succ_eq_map, List.mapM_cons]
      simp only [daoList, ht]
      rfl
    | some t =>
      let row := fun r => loadRow R db p dao (fun target key m => do
        let d ← daoClass R.schema target
        let (_, m) ← readInto R db fuel R.defaultProvider d key m
        return m) t r .empty
      have each : ∀ offset limit, daoList R db (fuel + 1) p dao offset limit =
          (listed offset limit (keyOrder R t)).bind fun rows => rows.mapM row := by
        intro offset limit
        rw [daoList, ht]
        rfl
      have one : ∀ i ∈ List.range (n + 1), listed (some (i * size : Nat)) (some (size : Int))
          (keyOrder R t) = some (page size (i * size : Nat) (keyOrder R t)) := by
        intro i hi
        have first : i * size ≤ (n + 1) * size :=
          Nat.mul_le_mul_right size (Nat.le_of_lt (List.mem_range.mp hi))
        have part : size ≤ (n + 1) * size := Nat.le_mul_of_pos_left size (Nat.succ_pos n)
        have fits : ∀ k : Nat, k ≤ (n + 1) * size → binds (k : Int) = true := by
          intro k hk
          simp only [binds, Bool.and_eq_true, decide_eq_true_eq]
          omega
        rw [listed, if_neg (by simp)]
        exact if_pos ⟨fits size part, fits (i * size) first⟩
      have all : (keyOrder R t).length ≤ (n + 1) * size := by
        rw [(keyOrder_perm R t).length_eq]
        rwa [Db.values_eq ht, List.length_map] at enough
      have pages : ((List.range (n + 1)).mapM fun i =>
          daoList R db (fuel + 1) p dao (some (i * size : Nat)) (some size)) =
          ((List.range (n + 1)).map fun i => page size (i * size : Nat) (keyOrder R t)).mapM
            fun rows => rows.mapM row := by
        rw [List.mapM_map]
        apply mapM_congr
        intro i hi
        rw [each, one i hi]
        rfl
      have whole : listed none none (keyOrder R t) = some (keyOrder R t) := if_pos ⟨rfl, rfl⟩
      rw [each, whole, Option.bind_some, pages, ← mapM_flatten, pages_flatten, List.take_of_length_le all]

/-- Both notes of the store, in the order of their keys, and the pages that they stand on. -/
theorem list_reads_each_notes : ∃ keys : List Int, keys.Pairwise (· < ·) ∧
    (keys.map Sqlite.Value.int).Perm (noteStore.db.values taggedNoteDao.table pk) ∧
      (∀ key ∈ keys, ∀ m, readInto noteReads noteStore.db (0 + 1) (.fresh [7]) taggedNoteDao (.int key)
        .empty ≠ some (false, m)) ∧
      ∀ offset limit, daoList noteReads noteStore.db (0 + 1) (.fresh [7]) taggedNoteDao offset limit =
        (listed offset limit keys).bind fun part => part.mapM fun key =>
          (readInto noteReads noteStore.db (0 + 1) (.fresh [7]) taggedNoteDao (.int key) .empty).map
            Prod.snd :=
  list_reads_each taggedNoteDao ⟨noteRow.columns, by decide +kernel, by decide +kernel⟩ 0 (.fresh [7])

theorem pages_make_list_notes :
    daoList noteReads noteStore.db 1 (.fresh [7]) taggedNoteDao none none =
      ((List.range 2).mapM fun i => daoList noteReads noteStore.db 1 (.fresh [7]) taggedNoteDao
        (some (i * 1 : Nat)) (some (1 : Nat))).map List.flatten :=
  pages_make_list noteReads noteStore.db taggedNoteDao 1 (.fresh [7]) (by omega) (by omega)
    (by decide +kernel)

end List

end Harpia
