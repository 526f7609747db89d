import Harpia.DaoRecorded

namespace Harpia

open Text Sqlite Proto

section Row

variable {R : ReadEnv} {db : Db} {p : KeyProvider} {dao : Dao} {msg out : Msg}
  (recur : String → Value → Msg → Option Msg)

/-- The child tables are read one by one. -/
theorem readChildren_fills (readable : dao.Readable R.schema) {key : Value}
    (wt : WellTyped R.schema.types dao.message msg) {children : List DaoChild}
    (all : ∀ child ∈ children, child ∈ dao.children)
    (apart : (children.map fun child => child.path.steps).Pairwise fun a b => ¬ a <+: b ∧ ¬ b <+: a)
    (fresh : ∀ child ∈ children, out.FreshAt child.path.steps) (h : out.Within msg)
    (tables : ∀ child ∈ children, ∃ ct entries, db.get? child.table = some ct ∧
      childTableEntries R.toDaoEnv (columnValue R.schema.types) dao key msg child = some entries ∧
        List.Forall₂ (Holds ct) entries (ct.select "owner" key))
    (nested : ∀ child ∈ children, ∀ target, child.kind = .repeated (some target) →
      ∀ c ∈ (msg.inner child.path.owner).elements child.path.field,
        ∃ d, daoClass R.schema target = some d ∧ ∀ k,
          bindValue R.schema.types d.message c pk = some k →
            ∃ e, recur target k .empty = some e ∧ Restores R.schema d c .empty e) :
    ∃ out', children.foldlM (readChild R db dao recur key) out = some out' ∧
      msg.Fills (children.map fun child => child.path.steps) out out' ∧
      ∀ child ∈ children, ChildKept R.schema msg out' child := by
  induction children generalizing out with
  | nil => exact ⟨out, rfl, .refl _ h, fun child hc => by cases hc⟩
  | cons child children ih =>
    rw [List.map_cons, List.pairwise_cons] at apart
    obtain ⟨across, later⟩ := apart
    obtain ⟨t, entries, ht, bound, held⟩ := tables child List.mem_cons_self
    obtain ⟨mid, first, fills, kept_⟩ := readChild_fills readable (all child List.mem_cons_self) wt h
      (fresh child List.mem_cons_self) ht bound held (nested child List.mem_cons_self)
    have freshMid : ∀ c ∈ children, mid.FreshAt c.path.steps := by
      intro c hc
      apply (fresh c (List.mem_cons_of_mem _ hc)).fills fills.lists
      intro other ho
      rw [List.mem_singleton.mp ho]
      exact (across _ (List.mem_map_of_mem hc)).symm
    obtain ⟨out', rest, fills', kept'⟩ := ih (fun c hc => all c (List.mem_cons_of_mem _ hc)) later
      freshMid fills.within (fun c hc => tables c (List.mem_cons_of_mem _ hc))
      fun c hc => nested c (List.mem_cons_of_mem _ hc)
    refine ⟨out', ?_, fills.trans fills', fun c hc => ?_⟩
    · rw [List.foldlM_cons, first]
      exact rest
    · rcases List.mem_cons.mp hc with rfl | hc
      · exact kept_.mono fills'.grows
      · exact kept' c hc

/-- Once its columns are read, a message has its key. -/
theorem pkValue_of_kept (keyed : Keyed dao) (within : out.Within msg)
    (kept_ : msg.KeptAt out [] pk) : pkValue R.toDaoEnv dao out = pkValue R.toDaoEnv dao msg := by
  have same : out.scalar? harpiaId.name = msg.scalar? harpiaId.name := by
    cases ho : out.scalar? harpiaId.name with
    | some x => exact ((within.field pk).scalar x ho).symm
    | none =>
      cases hm : msg.scalar? harpiaId.name with
      | none => rfl
      | some x =>
        have there : out.scalar? harpiaId.name = some x := kept_.scalar x hm
        rw [ho] at there
        cases there
  rw [keyed.pkValue_eq, keyed.pkValue_eq, attrValue, attrValue, same]

/-- `_load_row` reads back what is stored. -/
theorem loadRow_restores (readable : dao.Readable R.schema) (keyed : Keyed dao)
    (wt : WellTyped R.schema.types dao.message msg) (links : LinksKeyed R.toDaoEnv dao msg)
    {keys : Dao → Value → Prop} {nested : Dao → Msg → Prop} {t : Table} {key : Value} {r : Row}
    (rec : RecordedBy R db keys nested p dao msg t key r) (h : out.Within msg) (listless : out.Listless)
    (recurs : ∀ target d c s, StoresThrough R.schema dao d → daoClass R.schema target = some d →
      nested d c → WellTyped R.schema.types d.message c → LinksKeyed R.toDaoEnv d c → s.Within c →
        s.Listless → ∀ k, pkValue R.toDaoEnv d c = some k → ∃ s', recur target k s = some s' ∧
          Restores R.schema d c s s') :
    ∃ out', loadRow R db p dao recur t r out = some out' ∧ Restores R.schema dao msg out out' := by
  have apart := readable.apart
  rw [Dao.elsewhere, List.pairwise_append] at apart
  obtain ⟨columns, children, across⟩ := apart
  obtain ⟨mid, cells, fills, kept_⟩ := loadCells_fills readable rec.columns wt recur
    (fun col hcol => hcol) columns (fun steps _ => listless.freshAt steps) h (by
      intro col hcol target c s fk hs within listless
      obtain ⟨owner, field, d', place, found, sub, bound⟩ := fk_value readable rec.columns hcol fk
      obtain ⟨d, class_, there⟩ := rec.linked col hcol target c fk hs
      have type := (readable.fk col hcol target fk).2 field ⟨owner, place, found⟩ d class_
      cases sub.symm.trans type
      rw [hs, Option.getD_some] at bound
      have typed := (wt.inner place).sub found sub
      rw [hs, Option.getD_some] at typed
      have set_ : hasField R.schema.types owner.1 (msg.inner col.path.owner) col.path.field =
          some true := by
        rw [hasField, found, Option.bind_some, if_pos (by rw [sub, Option.isSome_some]), hs,
          Option.isSome_some]
      have at_ : ownerOf R.schema.types col.path.owner dao.message msg =
          some (owner.1, msg.inner col.path.owner) := by rw [ownerOf_eq, place, Option.map_some]
      have below : LinksKeyed R.toDaoEnv d c := fun d' m updates => links d' m (by
        apply Updates.column hcol fk class_ at_ set_
        rw [hs, Option.getD_some]
        exact updates)
      have given := links dao msg (.self dao msg) col hcol target c d fk hs class_ _ bound
      obtain ⟨s', read, restores⟩ := recurs target d c s (.column hcol fk class_) class_ there typed
        below within listless _ bound
      exact ⟨given, d, s', class_, read, restores⟩)
  have owner : pkValue R.toDaoEnv dao mid = some key := by
    obtain ⟨col, hcol, _, path, _⟩ := keyed.column
    have at_ := (kept_ col hcol).1
    rw [path] at at_
    rw [pkValue_of_kept keyed fills.within at_]
    exact rec.keyed
  have fresh : ∀ child ∈ dao.children, mid.FreshAt child.path.steps := by
    intro child hc
    apply (listless.freshAt _).fills fills.lists
    intro other ho
    exact (across other ho _ (List.mem_map_of_mem hc)).symm
  obtain ⟨out', read, fills', kept'⟩ := readChildren_fills recur readable wt
    (fun child hc => hc) children fresh fills.within rec.children (by
      intro child hc target kind c hmem
      obtain ⟨d, class_, there⟩ := rec.elements child hc target kind c hmem
      refine ⟨d, class_, fun k bound => ?_⟩
      obtain ⟨ct, entries, _, made, _⟩ := rec.children child hc
      obtain ⟨base, place, made⟩ := Option.bind_eq_some_iff.mp made
      rw [ownerOf_eq] at place
      obtain ⟨o, empty, rfl⟩ := Option.map_eq_some_iff.mp place
      obtain ⟨field, found, _⟩ := Option.bind_eq_some_iff.mp made
      have type := readable.elements child hc target kind field ⟨o, empty, found⟩ d class_
      have at_ : ownerOf R.schema.types child.path.owner dao.message msg =
          some (o.1, msg.inner child.path.owner) := by rw [ownerOf_eq, empty, Option.map_some]
      have below : LinksKeyed R.toDaoEnv d c := fun d' m updates =>
        links d' m (.element hc kind class_ at_ hmem updates)
      exact recurs target d c .empty (.element hc kind class_) class_ there
        ((wt.inner empty).element found type hmem) below (Msg.within_empty c) Msg.listless_empty k
        bound)
  refine ⟨out', ?_, ⟨fills.grows.trans fills'.grows, fills'.within, ?_⟩, fun path name stored => ?_⟩
  · simp only [loadRow, cells, Option.bind_eq_bind, Option.bind_some]
    split
    next none_ =>
      rw [none_] at read
      exact read
    next => rw [owner, Option.bind_some, read]
  · intro path name listed
    exact .inr ⟨[], List.mem_singleton_self _, List.nil_prefix⟩
  · cases stored with
    | column hcol => exact ((kept_ _ hcol).mono fills'.grows).1
    | child hc => exact (kept' _ hc).own
    | element i hc kind hcol =>
      apply (kept' _ hc).below i []
      rw [ElementStored, kind]
      exact ⟨rfl, _, hcol, rfl⟩
    | through hcol fk class_ below =>
      exact ((kept_ _ hcol).mono fills'.grows).2 _ _ _ _ fk class_ below
    | link i hc kind class_ below =>
      apply (kept' _ hc).below i
      rw [ElementStored, kind]
      exact ⟨_, class_, below⟩

end Row

section Tree

variable {R : ReadEnv} {db : Db} {root : Dao}
  (readable : ∀ d, StoredThrough R.schema root d → d.Readable R.schema)
  (keyed : ∀ d, StoredThrough R.schema root d → Keyed d)

include readable keyed

theorem readInto_fills {keys : Dao → Value → Prop} {fuel : Nat} {p : KeyProvider} {d : Dao}
    {msg out : Msg} (hd : StoredThrough R.schema root d) (rec : Recorded R db keys fuel p d msg)
    (wt : WellTyped R.schema.types d.message msg) (links : LinksKeyed R.toDaoEnv d msg)
    (h : out.Within msg) (listless : out.Listless)
    {key : Value} (hkey : pkValue R.toDaoEnv d msg = some key) :
    ∃ out', readInto R db fuel p d key out = some (true, out') ∧
      Restores R.schema d msg out out' := by
  induction fuel generalizing p d msg out key with
  | zero => exact rec.elim
  | succ fuel ih =>
    obtain ⟨t, key', r, rec⟩ := rec
    cases rec.keyed.symm.trans hkey
    let recur : String → Value → Msg → Option Msg := fun target key m =>
      (daoClass R.schema target).bind fun d =>
        (readInto R db fuel R.defaultProvider d key m).bind fun e => some e.2
    obtain ⟨out', read, restores⟩ := loadRow_restores recur (readable d hd) (keyed d hd) wt
      links rec h listless fun target d' c s through class_ there typed below within listless k hk => by
        obtain ⟨s', done, restores⟩ := ih (hd.tail through) there typed below within listless hk
        refine ⟨s', ?_, restores⟩
        simp only [recur, class_, done, Option.bind_some]
    refine ⟨out', ?_, restores⟩
    have found : (R.scan (t.select pk key)).head? = some r := by
      have same := R.scan_perm (t.select pk key)
      rw [rec.row] at same ⊢
      rw [List.perm_singleton.mp same, List.head?_cons]
    simp only [readInto, rec.table, found, Option.bind_eq_bind, Option.bind_some]
    show (loadRow R db p d recur t r out).bind (fun m => some (true, m)) = some (true, out')
    rw [read, Option.bind_some]

end Tree

end Harpia
