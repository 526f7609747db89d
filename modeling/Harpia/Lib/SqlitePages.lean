import Harpia.Lib.SqliteReferences
import Mathlib.Data.List.Perm.Basic

namespace Sqlite

section Pages

variable {α β : Type}

/-- What `LIMIT` and `OFFSET` leave of the rows found; a negative limit is none. -/
def page (limit offset : Int) (xs : List α) : List α :=
  let rest := xs.drop offset.toNat
  if limit < 0 then rest else rest.take limit.toNat

theorem page_map (f : α → β) (limit offset : Int) (xs : List α) :
    page limit offset (xs.map f) = (page limit offset xs).map f := by
  unfold page
  split
  · rw [List.map_drop]
  · rw [List.map_take, List.map_drop]

theorem page_sublist (limit offset : Int) (xs : List α) : (page limit offset xs).Sublist xs := by
  unfold page
  split
  · exact List.drop_sublist _ _
  · exact (List.take_sublist _ _).trans (List.drop_sublist _ _)

/-- Pages of one size, one after the other, are what comes first. -/
theorem pages_flatten (size count : Nat) (xs : List α) :
    ((List.range count).map fun i => page size (i * size : Nat) xs).flatten = xs.take (count * size) := by
  induction count with
  | zero => simp
  | succ count ih =>
    have last : page size (count * size : Nat) xs = (xs.drop (count * size)).take size := by
      rw [page, if_neg (by omega), Int.toNat_natCast, Int.toNat_natCast]
    rw [List.range_succ, List.map_append, List.flatten_append, ih]
    simp only [List.map_cons, List.map_nil, List.flatten_cons, List.flatten_nil, List.append_nil]
    rw [last, Nat.succ_mul, List.take_add]

theorem mapM_congr {f g : α → Option β} {xs : List α} (h : ∀ x ∈ xs, f x = g x) :
    xs.mapM f = xs.mapM g := by
  induction xs with
  | nil => rfl
  | cons x xs ih =>
    rw [List.mapM_cons, List.mapM_cons, h x List.mem_cons_self,
      ih fun y hy => h y (List.mem_cons_of_mem x hy)]

theorem mapM_flatten (f : α → Option β) (xss : List (List α)) :
    xss.flatten.mapM f = (xss.mapM fun xs : List α => xs.mapM f).map List.flatten := by
  induction xss with
  | nil => rfl
  | cons xs xss ih =>
    rw [List.flatten_cons, List.mapM_append, List.mapM_cons, ih]
    cases xs.mapM f with
    | none => rfl
    | some ys =>
      cases xss.mapM fun xs : List α => xs.mapM f with
      | none => rfl
      | some yss => rfl

/-- Where `f` tells the elements apart, one has the value of another only if it is that one. -/
theorem filter_key [DecidableEq β] {f : α → β} {xs : List α} (nodup : (xs.map f).Nodup) {a : α}
    (ha : a ∈ xs) : xs.filter (fun x => decide (f x = f a)) = [a] := by
  induction xs with
  | nil => cases ha
  | cons x xs ih =>
    obtain ⟨fresh, nodup⟩ := List.nodup_cons.mp nodup
    rcases List.mem_cons.mp ha with rfl | ha
    · have none_ : xs.filter (fun x => decide (f x = f a)) = [] := by
        apply List.filter_eq_nil_iff.mpr
        intro x hx
        have apart : f x ≠ f a := by
          intro same
          exact fresh (same ▸ List.mem_map_of_mem hx)
        simpa using apart
      rw [List.filter_cons_of_pos (by simp), none_]
    · have apart : f x ≠ f a := by
        intro same
        exact fresh (same ▸ List.mem_map_of_mem ha)
      rw [List.filter_cons_of_neg (by simpa using apart), ih nodup ha]

end Pages

section Keys

variable {t : Table} {column : String} {c : ColumnDef}

/-- The rows of a table have integers in an `INTEGER PRIMARY KEY` column. -/
theorem Table.int_of_key (hc : c ∈ t.columns) (keyed : c.pk) (named : fold c.name = fold column)
    {r : Row} (hr : r ∈ t.rows) : ∃ n, t.lookup r column = .int n := by
  have int := t.valid.integer c hc keyed r hr
  have here : fold column ∈ foldedNames t.columns := named ▸ List.mem_map_of_mem hc
  rw [Table.lookup, if_pos here, ← r.get_congr named]
  cases found : r.get c.name with
  | int n => exact ⟨n, rfl⟩
  | null => simp [found, Value.isInt] at int
  | real bits => simp [found, Value.isInt] at int
  | text s => simp [found, Value.isInt] at int

theorem Table.nodup_of_key (hc : c ∈ t.columns) (keyed : c.pk) (named : fold c.name = fold column) :
    (t.rows.map fun r => t.lookup r column).Nodup := by
  have here : fold column ∈ foldedNames t.columns := named ▸ List.mem_map_of_mem hc
  rw [List.Nodup, List.pairwise_map]
  apply (t.valid.unique c hc (.inr keyed)).imp_of_mem
  intro r r' hr _ apart same
  rw [Table.lookup, Table.lookup, if_pos here, if_pos here, ← r.get_congr named,
    ← r'.get_congr named] at same
  apply apart
  intro name hname
  obtain rfl := List.mem_singleton.mp hname
  refine ⟨fun missing => ?_, same⟩
  have int := t.valid.integer c hc keyed r hr
  rw [missing] at int
  cases int

/-- A query for a row's key finds that row alone. -/
theorem Table.select_of_key (hc : c ∈ t.columns) (keyed : c.pk) (named : fold c.name = fold column)
    {r : Row} (hr : r ∈ t.rows) : t.select column (t.lookup r column) = [r] := by
  obtain ⟨n, int⟩ := Table.int_of_key hc keyed named hr
  have given : t.lookup r column ≠ .null := by simp [int]
  have hits : t.hits column (t.lookup r column) =
      fun r' => decide (t.lookup r' column = t.lookup r column) := by
    funext r'
    simp [Table.hits, given]
  rw [Table.select, hits]
  exact filter_key (Table.nodup_of_key hc keyed named) hr

end Keys

end Sqlite
