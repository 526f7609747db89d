import Harpia.MigrationColumns

namespace Harpia

open Text Sqlite

/-- The live child tables a migration finds. -/
def childListing (table : String) (db : Db) : List String :=
  db.names.filter fun n => startsWith n (table ++ "__")

/-- One child rename on the pairs of a live table's current and original name. -/
def moveChild (live : List (String × String)) (p : String × String) : List (String × String) :=
  if p.1 ∈ live.map Prod.fst ∧ p.2 ∉ live.map Prod.fst then
    live.map fun e => if e.1 = p.1 then (p.2, e.2) else e
  else live

def movedChildren (d : Declared) (db : Db) : List (String × String) :=
  d.childRenames.foldl moveChild ((childListing d.table db).map fun n => (n, n))

/-- The columns are exactly those the DAO reads and writes. -/
def ChildShape.Exact (shape : ChildShape) (columns : List ColumnDef) : Prop :=
  ∀ n, n ∈ columns.map ColumnDef.name ↔ n ∈ shape.columns.map ColumnDef.name

/-- The live columns are exact already, or differ in a way the plan of the kind detects. -/
def ChildShape.Adapts (shape : ChildShape) (columns : List ColumnDef) : Prop :=
  match shape with
  | .repeated valSql => shape.Exact columns ∨ drifted (liveTypes columns) [("value", valSql)]
  | .map keySql valSql =>
    shape.Exact columns ∨ drifted (liveTypes columns) [("key", keySql), ("value", valSql)]
  | .link _ => shape.Exact columns
  | .composed cs =>
    ("owner" ∈ columns.map ColumnDef.name ∧ "ordinal" ∈ columns.map ColumnDef.name) ∨
      drifted (liveTypes columns) (cs.map fun c => (c.name, c.sqlType)) ∨
      ∃ c ∈ columns, c.name ∉ "owner" :: "ordinal" :: cs.map Column.name

def ChildShaped (c : Child) (db : Db) : Prop :=
  ∃ t, db.get? c.table = some t ∧ c.shape.Exact t.columns

/-- What a version must find in the database for its migration to reach the declared shape. -/
structure Evolvable (d : Declared) (db : Db) : Prop where
  /-- no marker names the key column -/
  key_kept : ∀ c ∈ d.columns, c.renamedFrom ≠ some "HARPIA_ID"
  /-- child table names differ in more than case, from each other and from live tables -/
  children_distinct : (d.children.map fun c => fold c.table).Nodup
  spelled : ∀ c ∈ d.children, ∀ n ∈ db.names, fold n = fold c.table → n = c.table
  /-- the table found for a child, renames applied, is exact or detectably different -/
  adapts : ∀ c ∈ d.children, ∀ n, (c.table, n) ∈ movedChildren d db → ∀ t, db.get? n = some t →
    c.shape.Adapts t.columns

theorem ChildShape.Exact.adapts {shape : ChildShape} {columns : List ColumnDef}
    (h : shape.Exact columns) : shape.Adapts columns := by
  cases shape with
  | map => exact .inl h
  | repeated => exact .inl h
  | link => exact h
  | composed cs =>
    refine .inl ⟨(h _).mpr ?_, (h _).mpr ?_⟩ <;> simp [ChildShape.columns, keyColumn]

theorem exact_columns (shape : ChildShape) : shape.Exact shape.columns := fun _ => Iff.rfl

theorem childDeclared_unique {d : Declared} (hd : (d.children.map fun c => fold c.table).Nodup)
    {c c' : Child} (hc : c ∈ d.children) (hc' : c' ∈ d.children)
    (h : fold c.table = fold c'.table) : c = c' :=
  List.inj_on_of_nodup_map hd hc hc' h

/-- The child tables once `childHave` has been brought up to date. -/
structure ChildTracks (d : Declared) (db₀ : Db) (moved : List (String × String))
    (childHave : List String) (db : Db) : Prop where
  main : db.get? d.table = db₀.get? d.table
  listed : ∀ n, n ∈ childHave ↔ n ∈ db.names ∧ startsWith n (d.table ++ "__")
  current : ∀ n, n ∈ childHave ↔ n ∈ moved.map Prod.fst
  origin : ∀ e ∈ moved, db.get? e.1 = db₀.get? e.2
  spelled : ∀ c ∈ d.children, ∀ n ∈ db.names, fold n = fold c.table → n = c.table

theorem mem_moveChild_fst {live : List (String × String)} {p : String × String}
    (hold : p.1 ∈ live.map Prod.fst) {n : String} :
    n ∈ (live.map fun e => if e.1 = p.1 then (p.2, e.2) else e).map Prod.fst ↔
      n ∈ live.map Prod.fst ∧ n ≠ p.1 ∨ n = p.2 := by
  simp only [List.map_map, List.mem_map, Function.comp_apply]
  constructor
  · rintro ⟨e, he, rfl⟩
    split
    · exact .inr rfl
    next hne => exact .inl ⟨⟨e, he, rfl⟩, hne⟩
  · rintro (⟨⟨e, he, rfl⟩, hne⟩ | rfl)
    · exact ⟨e, he, by rw [if_neg hne]⟩
    · obtain ⟨e, he, hp⟩ := List.mem_map.mp hold
      exact ⟨e, he, by rw [if_pos hp]⟩

theorem childRename_named {d : Declared} {p : String × String} (h : p ∈ d.childRenames) :
    ∃ c ∈ d.children, c.table = p.2 ∧ ∃ old, p.1 = d.table ++ "__" ++ old := by
  obtain ⟨c, hc, hp⟩ := List.mem_filterMap.mp h
  obtain ⟨old, -, rfl⟩ := Option.map_eq_some_iff.mp hp
  exact ⟨c, mem_evolving hc, rfl, old, rfl⟩

theorem childTracks_rename {C : Casting} {d : Declared} {db₀ db db' : Db}
    (distinct : (d.children.map fun c => fold c.table).Nodup) {moved : List (String × String)}
    {childHave : List String} (h : ChildTracks d db₀ moved childHave db) {p : String × String}
    (hp : p ∈ d.childRenames) (hold : p.1 ∈ childHave) (hnew : p.2 ∉ childHave)
    (he : exec C (.renameTable p.1 p.2) db = some db') :
    ChildTracks d db₀ (moveChild moved p) (swapName childHave p.1 p.2) db' := by
  obtain ⟨c, hc, htable, old, hpre⟩ := childRename_named hp
  have hlive := ((h.listed _).mp hold).1
  have names := fun n => mem_names_renameTable he hlive (n := n)
  obtain ⟨-, t, ht, hfree, rfl⟩ := exec_renameTable he
  obtain ⟨hmain, -, hstart⟩ := childTable_ne hc
  rw [htable] at hmain hstart
  have hmove : moveChild moved p = moved.map fun e => if e.1 = p.1 then (p.2, e.2) else e := by
    rw [moveChild, if_pos ⟨(h.current _).mp hold, fun hm => hnew ((h.current _).mpr hm)⟩]
  constructor
  · rw [Db.get?_put, if_neg hmain.symm, Db.get?_erase, if_neg, h.main]
    rw [hpre]
    exact (fold_child_ne old).symm
  · intro n
    rw [mem_swapName, names, h.listed]
    constructor
    · rintro (⟨⟨hn, hs⟩, hne⟩ | rfl)
      · exact ⟨.inl ⟨hn, hne⟩, hs⟩
      · exact ⟨.inr rfl, hstart⟩
    · rintro ⟨⟨hn, hne⟩ | rfl, hs⟩
      · exact .inl ⟨⟨hn, hs⟩, hne⟩
      · exact .inr rfl
  · intro n
    rw [mem_swapName, hmove, mem_moveChild_fst ((h.current _).mp hold), h.current]
  · intro e' he'
    rw [hmove] at he'
    obtain ⟨e, he, rfl⟩ := List.mem_map.mp he'
    split
    next heq => rw [Db.get?_put_self, ← h.origin e he, heq, ht]
    next hne' =>
      have hm : e.1 ∈ db.names := ((h.listed _).mp ((h.current _).mpr (List.mem_map_of_mem he))).1
      have hn₂ : fold e.1 ≠ fold p.2 := by
        intro hf
        obtain ⟨t', ht'⟩ := Db.exists_get?_of_mem_names hm
        rw [db.get?_congr hf, hfree] at ht'
        simp at ht'
      have hn₁ : fold e.1 ≠ fold p.1 := fun hf => hne' (Db.names_unique hm hlive hf)
      rw [Db.get?_put, if_neg hn₂, Db.get?_erase, if_neg hn₁, h.origin e he]
  · intro c' hc' n hn hf
    rcases (names n).mp hn with ⟨hn, -⟩ | rfl
    · exact h.spelled c' hc' n hn hf
    · rw [← htable] at hf ⊢
      rw [childDeclared_unique distinct hc hc' hf]

theorem renameChild_tracks {C : Casting} {d : Declared} {db₀ db : Db}
    (distinct : (d.children.map fun c => fold c.table).Nodup) {moved : List (String × String)}
    {childHave : List String} (h : ChildTracks d db₀ moved childHave db) {p : String × String}
    (hp : p ∈ d.childRenames) :
    (renameChild childHave p).Obeys (exec C) (fun _ => True) db fun have' =>
      ChildTracks d db₀ (moveChild moved p) have' := by
  unfold renameChild
  split
  next hfire =>
    refine Prog.obeys_bind ⟨fun _ _ => trivial, fun db' he => ?_⟩
    exact childTracks_rename distinct h hp hfire.1 hfire.2 (execAll_singleton he)
  next hskip =>
    have hsame : moveChild moved p = moved := by
      rw [moveChild, if_neg]
      rwa [← h.current, ← h.current]
    rw [hsame]
    exact h

end Harpia
