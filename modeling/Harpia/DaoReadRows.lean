import Harpia.DaoReadColumns

namespace Harpia

open Text Sqlite Proto

/-- The field at the end of a path. -/
def FieldAt (types : Types) (d : Message) (path : FieldPath) (field : Variable) : Prop :=
  ∃ owner, ownerOf types path.owner d .empty = some owner ∧ owner.1.field? path.field = some field

/-- The fields whose values stand in rows of their own. -/
def Dao.elsewhere (dao : Dao) : List (List String) :=
  (dao.columns.filter fun col => col.fk.isSome).map (fun col => col.path.steps) ++
    dao.children.map fun child => child.path.steps

/-- What reading relies on: the columns and child tables are for fields of their kinds, an embed
has a column for its presence, and no field has its rows below those of another. -/
structure Dao.Readable (S : Schema) (dao : Dao) : Prop where
  phi : ∀ col ∈ dao.columns, col.phi → col.presence = false ∧ col.fk = none ∧
    ∀ field, FieldAt S.types dao.message col.path field → isScalarField S.types field
  presence : ∀ col ∈ dao.columns, col.presence → ∀ field, FieldAt S.types dao.message col.path field →
    (subType S.types field).isSome
  fk : ∀ col ∈ dao.columns, ∀ target, col.fk = some target → col.presence = false ∧
    ∀ field, FieldAt S.types dao.message col.path field → ∀ d, daoClass S target = some d →
      subType S.types field = some d.message
  guarded : ∀ col ∈ dao.columns, col.presence = false → col.fk = none → ∀ above name,
    col.path.owner = above ++ [name] → ∃ c ∈ dao.columns, c.presence ∧ c.path = ⟨above, name⟩
  maps : ∀ child ∈ dao.children, child.kind = .map → ∀ field,
    FieldAt S.types dao.message child.path field →
      ∃ key value, field.typeMap[0]? = some key ∧ field.typeMap[1]? = some value
  lists : ∀ child ∈ dao.children, child.kind = .repeated none → ∀ field,
    FieldAt S.types dao.message child.path field → field.typeMap = [] ∧ .REPETEABLE ∈ field.modifiers ∧
      (isScalarToken field.type || isEnumType S.types field)
  elements : ∀ child ∈ dao.children, ∀ target, child.kind = .repeated (some target) → ∀ field,
    FieldAt S.types dao.message child.path field → ∀ d, daoClass S target = some d →
      messageType S.types field = some d.message
  composed : ∀ child ∈ dao.children, ∀ columns, child.kind = .composed columns → ∀ col ∈ columns,
    col.path.owner = [] ∧ col.presence = false ∧ col.fk = none
  apart : dao.elsewhere.Pairwise fun a b => ¬ a <+: b ∧ ¬ b <+: a

/-- A field that a DAO stores: the steps down to its message, and its name. -/
inductive StoredAt (S : Schema) : Dao → List Step → String → Prop
  | column {dao : Dao} {col : DaoColumn} (mem : col ∈ dao.columns) :
      StoredAt S dao (col.path.owner.map .field) col.path.field
  | child {dao : Dao} {child : DaoChild} (mem : child ∈ dao.children) :
      StoredAt S dao (child.path.owner.map .field) child.path.field
  | element {dao : Dao} {child : DaoChild} {columns : List DaoColumn} {col : DaoColumn} (i : Nat)
      (mem : child ∈ dao.children) (kind : child.kind = .composed columns) (hcol : col ∈ columns) :
      StoredAt S dao (child.path.owner.map .field ++ [.element child.path.field i]) col.path.field
  | through {dao d : Dao} {col : DaoColumn} {target : String} {path : List Step} {name : String}
      (mem : col ∈ dao.columns) (fk : col.fk = some target) (class_ : daoClass S target = some d)
      (below : StoredAt S d path name) : StoredAt S dao (col.path.steps.map .field ++ path) name
  | link {dao d : Dao} {child : DaoChild} {target : String} {path : List Step} {name : String}
      (i : Nat) (mem : child ∈ dao.children) (kind : child.kind = .repeated (some target))
      (class_ : daoClass S target = some d) (below : StoredAt S d path name) :
      StoredAt S dao (child.path.owner.map .field ++ .element child.path.field i :: path) name

section Sub

variable {R : ReadEnv} {d : Message} {msg out : Msg} {path : FieldPath}

theorem modifySub_fills {f : Msg → Option Msg} {owner : Message × Msg} {field : Variable} {d' : Message}
    {c s : Msg} {fields : List (List String)} (h : out.Within msg)
    (place : ownerOf R.schema.types path.owner d .empty = some owner)
    (found : owner.1.field? path.field = some field) (sub : subType R.schema.types field = some d')
    (held : (msg.inner path.owner).sub? path.field = some c)
    (done : f (out.inner path.steps) = some s) (fills : c.Fills fields (out.inner path.steps) s) :
    ∃ out', modifySub R d out path f = some out' ∧
      msg.Fills (fields.map (path.steps ++ ·)) out out' ∧ out'.inner path.steps = s ∧
      msg.KeptAt out' (path.owner.map .field) path.field := by
  have below : ((out.inner path.owner).sub? path.field).getD .empty = out.inner path.steps := by
    rw [FieldPath.steps, Msg.inner_append, Msg.inner_cons, Msg.inner_nil]
  have change : (f (((out.inner path.owner).sub? path.field).getD .empty)).map (fun c =>
      (out.inner path.owner).set path.field (some (.sub c))) =
      some ((out.inner path.owner).set path.field (some (.sub s))) := by
    rw [below, done, Option.map_some]
  obtain ⟨out', hm⟩ := Msg.modify_exists (f := fun o => (f ((o.sub? path.field).getD .empty)).map
    fun c => o.set path.field (some (.sub c))) change
  obtain ⟨o, ho, at_⟩ := Msg.modify_at hm
  rw [change] at ho
  cases ho
  have inner : out'.inner path.owner = (out.inner path.owner).set path.field (some (.sub s)) := by
    rw [Msg.inner, at_, Option.getD_some]
  refine ⟨out', ?_, ?_, ?_, ?_⟩
  · rw [modifySub, ownerOf_eq, place, Option.map_some, Option.bind_some, found, Option.bind_some, sub,
      Option.bind_some]
    exact hm
  · have moved : fields.map (path.steps ++ ·) =
        (fields.map (path.field :: ·)).map (path.owner ++ ·) := by
      rw [List.map_map]
      refine List.map_congr_left fun steps _ => ?_
      rw [FieldPath.steps, Function.comp_apply, List.append_assoc, List.singleton_append]
    rw [moved]
    refine Msg.fills_modify h (by rw [Msg.at?_of_sub? held, Option.isSome_some]) hm fun o ho => ?_
    rw [change] at ho
    cases ho
    refine Msg.fills_set_sub (h.inner path.owner) held ?_
    have child : (out.inner path.owner).child (.field path.field) = out.inner path.steps := below
    rw [child]
    exact fills
  · rw [FieldPath.steps, Msg.inner_append, inner, Msg.inner_cons, Msg.sub?_set_sub, Option.getD_some,
      Msg.inner_nil]
  · rw [Msg.KeptAt, Msg.under_fields, Msg.under_fields, inner]
    refine .of_sub held ?_
    rw [Msg.sub?_set_sub, Option.isSome_some]

end Sub

theorem inner_sub {m c : Msg} {path : FieldPath} (h : (m.inner path.owner).sub? path.field = some c) :
    m.inner path.steps = c := by
  rw [Msg.inner, FieldPath.steps, Msg.at?_snoc h, Option.getD_some]

section Row

variable {R : ReadEnv} {p : KeyProvider} {dao : Dao} {msg out : Msg} {value : DaoColumn → Value}

/-- Below a field that is not set, nothing is. -/
theorem keptAt_of_absent {steps above : List String} {last : String} {path : List Step} {name : String}
    (none_ : (msg.inner above).get? last = none) (start : above ++ [last] <+: steps) :
    msg.KeptAt out (steps.map .field ++ path) name := by
  obtain ⟨rest, rfl⟩ := start
  have sub : (msg.inner above).sub? last = none := by rw [Msg.sub?, none_]
  have empty_ : msg.inner (above ++ [last] ++ rest) = .empty := by
    rw [Msg.inner_append, Msg.inner_append, Msg.inner_cons, sub, Option.getD_none, Msg.inner_nil,
      Msg.inner_empty]
  refine .of_none _ ?_
  rw [Msg.under_append, Msg.under_fields, empty_, Msg.under_empty, Msg.get?_empty]

variable (readable : dao.Readable R.schema)
  (holds : ∀ col ∈ dao.columns, ColumnHolds R p dao.message msg col (value col))

include readable holds

theorem presence_value {col : DaoColumn} (hcol : col ∈ dao.columns) (presence : col.presence) :
    (∃ owner field d', ownerOf R.schema.types col.path.owner dao.message .empty = some owner ∧
      owner.1.field? col.path.field = some field ∧ subType R.schema.types field = some d') ∧
    value col = .int (if ((msg.inner col.path.owner).sub? col.path.field).isSome then 1 else 0) := by
  have plain : col.phi = false := by
    cases hp : col.phi with
    | false => rfl
    | true =>
      have no := (readable.phi col hcol hp).1
      rw [presence] at no
      cases no
  have bound := holds col hcol
  rw [ColumnHolds, if_neg (by simp [plain])] at bound
  obtain ⟨owner, place, bound⟩ := Option.bind_eq_some_iff.mp bound
  rw [if_pos presence] at bound
  rw [ownerOf_eq] at place
  obtain ⟨o, empty, rfl⟩ := Option.map_eq_some_iff.mp place
  obtain ⟨set_, hset, hv⟩ := Option.map_eq_some_iff.mp bound
  obtain ⟨field, found, hset⟩ := Option.bind_eq_some_iff.mp hset
  have sub := readable.presence col hcol presence field ⟨o, empty, found⟩
  rw [if_pos sub] at hset
  obtain ⟨d', hd'⟩ := Option.isSome_iff_exists.mp sub
  refine ⟨⟨o, field, d', empty, found, hd'⟩, ?_⟩
  rw [← hv, ← Option.some.inj hset]

theorem absent_not_set (wt : WellTyped R.schema.types dao.message msg) {steps : List String}
    (h : steps ∈ absentEmbeds (dao.columns.map fun col => (col, value col))) :
    ∃ above last, (msg.inner above).get? last = none ∧ steps = above ++ [last] := by
  obtain ⟨e, he, rfl⟩ := List.mem_map.mp h
  obtain ⟨mem, zero⟩ := List.mem_filter.mp he
  obtain ⟨col, hcol, rfl⟩ := List.mem_map.mp mem
  obtain ⟨presence, zero⟩ := Bool.and_eq_true_iff.mp zero
  refine ⟨col.path.owner, col.path.field, ?_, rfl⟩
  obtain ⟨⟨owner, field, d', empty, found, sub⟩, said⟩ := presence_value readable holds hcol presence
  replace zero : isZero (value col) = true := zero
  rw [said] at zero
  cases hc : (msg.inner col.path.owner).get? col.path.field with
  | none => rfl
  | some c =>
    have allowed := (wt.inner empty).own found hc
    obtain ⟨o, rfl⟩ := allowed.of_sub (by rw [sub, Option.isSome_some])
    simp [Msg.sub?, hc, isZero] at zero

/-- A column that is not skipped: the embeds above it are set. -/
theorem owner_there {col : DaoColumn} (hcol : col ∈ dao.columns) (plain : col.presence = false)
    (fk : col.fk = none)
    (read : ¬ ∃ steps ∈ absentEmbeds (dao.columns.map fun col => (col, value col)),
      steps <+: col.path.steps) : (msg.at? col.path.owner).isSome := by
  rcases List.eq_nil_or_concat col.path.owner with none_ | ⟨above, name, owner⟩
  · rw [none_]
    rfl
  · rw [List.concat_eq_append] at owner
    obtain ⟨c, hc, presence, path⟩ := readable.guarded col hcol plain fk above name owner
    cases hs : (msg.inner above).sub? name with
    | some o => rw [owner, Msg.at?_snoc hs, Option.isSome_some]
    | none =>
      obtain ⟨_, said⟩ := presence_value readable holds hc presence
      rw [path, hs, Option.isSome_none] at said
      have zero : (c.presence && isZero (value c)) = true := by
        rw [presence, said]
        rfl
      refine absurd ⟨c.path.steps, ?_, ?_⟩ read
      · exact List.mem_map.mpr ⟨(c, value c),
          List.mem_filter.mpr ⟨List.mem_map_of_mem hc, zero⟩, rfl⟩
      · rw [path, FieldPath.steps, FieldPath.steps, owner]
        exact List.prefix_append _ _

/-- The columns with a row of another table below them. -/
def fkSteps (columns : List DaoColumn) : List (List String) :=
  (columns.filter fun col => col.fk.isSome).map fun col => col.path.steps

/-- What a column is for has been read: its field, and what the row that it leads to stores. -/
def ColumnKept (S : Schema) (msg out : Msg) (col : DaoColumn) : Prop :=
  msg.KeptAt out (col.path.owner.map .field) col.path.field ∧
    ∀ target d path name, col.fk = some target → daoClass S target = some d → StoredAt S d path name →
      msg.KeptAt out (col.path.steps.map .field ++ path) name

/-- A message has been read from its row into `s`. -/
structure Restores (S : Schema) (d : Dao) (c s s' : Msg) : Prop where
  fills : c.Fills [[]] s s'
  kept : ∀ path name, StoredAt S d path name → c.KeptAt s' path name

omit readable holds in
theorem ColumnKept.mono {S : Schema} {out' : Msg} {col : DaoColumn} (h : ColumnKept S msg out col)
    (grows : out.Within out') : ColumnKept S msg out' col :=
  ⟨h.1.mono grows, fun target d path name fk class_ stored =>
    (h.2 target d path name fk class_ stored).mono grows⟩

/-- A foreign key is the key of the child, 0 where there is none. -/
theorem fk_value {col : DaoColumn} (hcol : col ∈ dao.columns) {target : String}
    (fk : col.fk = some target) :
    ∃ owner field d', ownerOf R.schema.types col.path.owner dao.message .empty = some owner ∧
      owner.1.field? col.path.field = some field ∧ subType R.schema.types field = some d' ∧
      bindValue R.schema.types d'
        (((msg.inner col.path.owner).sub? col.path.field).getD .empty) pk = some (value col) := by
  have plain : col.phi = false := by
    cases hp : col.phi with
    | false => rfl
    | true =>
      have no := (readable.phi col hcol hp).2.1
      rw [fk] at no
      cases no
  have bound := holds col hcol
  rw [ColumnHolds, if_neg (by simp [plain])] at bound
  obtain ⟨owner, place, bound⟩ := Option.bind_eq_some_iff.mp bound
  rw [if_neg (by simp [(readable.fk col hcol target fk).1]), if_pos (by simp [fk])] at bound
  rw [ownerOf_eq] at place
  obtain ⟨o, empty, rfl⟩ := Option.map_eq_some_iff.mp place
  obtain ⟨child, hchild, bound⟩ := Option.bind_eq_some_iff.mp bound
  obtain ⟨field, found, sub⟩ := Option.bind_eq_some_iff.mp hchild
  exact ⟨o, field, child, empty, found, sub, bound⟩

omit readable holds in
theorem inner_within {c : Msg} {path : FieldPath} (h : out.Within msg)
    (held : (msg.inner path.owner).sub? path.field = some c) : (out.inner path.steps).Within c := by
  have within := h.inner path.steps
  rwa [inner_sub held] at within

theorem skipped_kept (wt : WellTyped R.schema.types dao.message msg) {col : DaoColumn}
    {steps : List String} (start : steps <+: col.path.steps)
    (absent : steps ∈ absentEmbeds (dao.columns.map fun col => (col, value col))) :
    ColumnKept R.schema msg out col := by
  obtain ⟨above, last, none_, rfl⟩ := absent_not_set readable holds wt absent
  refine ⟨?_, fun target d path name _ _ _ => keptAt_of_absent none_ start⟩
  rcases List.prefix_concat_iff.mp start with same | start
  · obtain ⟨same_owner, same_field⟩ := List.append_inj' same rfl
    cases same_owner
    cases same_field
    exact keptAt_of_none none_
  · have kept_ : msg.KeptAt out (col.path.owner.map .field ++ []) col.path.field :=
      keptAt_of_absent none_ start
    rwa [List.append_nil] at kept_

/-- The presence of an embed is read where it is set, or else its column is skipped. -/
theorem presenceCell_fills {col : DaoColumn} (hcol : col ∈ dao.columns) (presence : col.presence)
    (h : out.Within msg)
    (read : ¬ ∃ steps ∈ absentEmbeds (dao.columns.map fun col => (col, value col)),
      steps <+: col.path.steps) :
    ∃ out', modifySub R dao.message out col.path some = some out' ∧
      msg.Fills (fkSteps [col]) out out' ∧ ColumnKept R.schema msg out' col := by
  have no_fk : col.fk = none := by
    cases hf : col.fk with
    | none => rfl
    | some target =>
      have no := (readable.fk col hcol target hf).1
      rw [presence] at no
      cases no
  obtain ⟨⟨owner, field, d', empty, found, sub⟩, said⟩ := presence_value readable holds hcol presence
  cases hs : (msg.inner col.path.owner).sub? col.path.field with
  | none =>
    rw [hs, Option.isSome_none] at said
    have zero : (col.presence && isZero (value col)) = true := by
      rw [said]
      exact Bool.and_eq_true_iff.mpr ⟨presence, rfl⟩
    refine absurd ⟨col.path.steps, ?_, List.prefix_refl _⟩ read
    exact List.mem_map.mpr ⟨(col, value col),
      List.mem_filter.mpr ⟨List.mem_map_of_mem hcol, zero⟩, rfl⟩
  | some c =>
    obtain ⟨out', done, fills, _, kept_⟩ := modifySub_fills (R := R) (f := some) h empty found sub hs
      rfl (.refl [] (inner_within h hs))
    have none_ : fkSteps [col] = [] := by simp [fkSteps, no_fk]
    refine ⟨out', done, none_ ▸ fills, kept_, fun target d path name fk => ?_⟩
    rw [no_fk] at fk
    cases fk

/-- The row that a foreign key leads to is read; there is none for the key 0. -/
theorem fkCell_fills (wt : WellTyped R.schema.types dao.message msg)
    {recur : String → Value → Msg → Option Msg} {col : DaoColumn} (hcol : col ∈ dao.columns)
    {target : String} (hf : col.fk = some target) (h : out.Within msg) (fresh : out.FreshAt col.path.steps)
    (nested : ∀ c s, (msg.inner col.path.owner).sub? col.path.field = some c → s.Within c →
      s.Listless → truthy (value col) ∧ ∃ d s', daoClass R.schema target = some d ∧
        recur target (value col) s = some s' ∧ Restores R.schema d c s s') :
    ∃ out', (if truthy (value col) then modifySub R dao.message out col.path (recur target (value col))
        else some out) = some out' ∧
      msg.Fills (fkSteps [col]) out out' ∧ ColumnKept R.schema msg out' col := by
  obtain ⟨owner, field, d', empty, found, sub, bound⟩ := fk_value readable holds hcol hf
  cases hs : (msg.inner col.path.owner).sub? col.path.field with
  | none =>
    have none_ : (msg.inner col.path.owner).get? col.path.field = none := by
      cases hc : (msg.inner col.path.owner).get? col.path.field with
      | none => rfl
      | some c =>
        have allowed := (wt.inner empty).own found hc
        obtain ⟨o, rfl⟩ := allowed.of_sub (by rw [sub, Option.isSome_some])
        simp [Msg.sub?, hc] at hs
    refine ⟨out, ?_, .refl _ h, keptAt_of_none none_, fun target d path name _ _ _ =>
      keptAt_of_absent none_ (List.prefix_refl _)⟩
    have zero : value col = .int 0 := by
      rw [hs, Option.getD_none, bindValue, field?_pk] at bound
      exact (Option.some.inj bound).symm
    simp only [zero]
    rfl
  | some c =>
    obtain ⟨true_, d, s', class_, read_, restores⟩ := nested c _ hs (inner_within h hs) fresh.listless
    obtain ⟨out', done, fills, inner, kept_⟩ := modifySub_fills (R := R) h empty found sub hs
      read_ restores.fills
    have moved : [[]].map (col.path.steps ++ ·) = fkSteps [col] := by
      have below : fkSteps [col] = [col.path.steps] := by simp [fkSteps, hf]
      rw [below, List.map_singleton, List.append_nil]
    refine ⟨out', ?_, moved ▸ fills, kept_, fun target' d'' path name fk class' stored => ?_⟩
    · simp only [true_, if_true]
      exact done
    · rw [hf] at fk
      cases fk
      cases class_.symm.trans class'
      have at_ := restores.kept path name stored
      rw [Msg.KeptAt, Msg.under_append, Msg.under_append, Msg.under_fields, Msg.under_fields,
        inner, inner_sub hs]
      exact at_

theorem loadCell_fills (wt : WellTyped R.schema.types dao.message msg)
    {recur : String → Value → Msg → Option Msg} {col : DaoColumn} (hcol : col ∈ dao.columns)
    (h : out.Within msg) (fresh : col.fk.isSome → out.FreshAt col.path.steps)
    (nested : ∀ target c s, col.fk = some target →
      (msg.inner col.path.owner).sub? col.path.field = some c → s.Within c → s.Listless →
      truthy (value col) ∧ ∃ d s', daoClass R.schema target = some d ∧
        recur target (value col) s = some s' ∧ Restores R.schema d c s s') :
    ∃ out', loadCell R p dao recur (absentEmbeds (dao.columns.map fun col => (col, value col))) out
        (col, value col) = some out' ∧
      msg.Fills (fkSteps [col]) out out' ∧ ColumnKept R.schema msg out' col := by
  unfold loadCell
  split
  next skipped =>
    obtain ⟨steps, absent, start⟩ := List.any_eq_true.mp skipped
    exact ⟨out, rfl, .refl _ h,
      skipped_kept readable holds wt (List.isPrefixOf_iff_prefix.mp start) absent⟩
  next read =>
    replace read : ¬ ∃ steps ∈ absentEmbeds (dao.columns.map fun col => (col, value col)),
        steps <+: col.path.steps := by
      rintro ⟨steps, hsteps, start⟩
      exact read (List.any_eq_true.mpr ⟨steps, hsteps, List.isPrefixOf_iff_prefix.mpr start⟩)
    split
    next presence => exact presenceCell_fills readable holds hcol presence h read
    next plain =>
      replace plain : col.presence = false := by simpa using plain
      cases hf : col.fk with
      | none =>
        have there := owner_there readable holds hcol plain hf read
        obtain ⟨out', done, fills, kept_⟩ := loadColumn_fills wt h plain hf there
          (fun phi owner field empty found => (readable.phi col hcol phi).2.2 field ⟨owner, empty, found⟩)
          (holds col hcol)
        have none_ : fkSteps [col] = [] := by simp [fkSteps, hf]
        exact ⟨out', done, none_ ▸ fills, kept_, fun target d path name fk => by
          rw [hf] at fk
          cases fk⟩
      | some target =>
        exact fkCell_fills readable holds wt hcol hf h (fresh (by rw [hf]; rfl))
          fun c s hs => nested target c s hf hs

theorem loadCells_fills (wt : WellTyped R.schema.types dao.message msg)
    (recur : String → Value → Msg → Option Msg) {columns : List DaoColumn}
    (all : ∀ col ∈ columns, col ∈ dao.columns)
    (apart : (fkSteps columns).Pairwise fun a b => ¬ a <+: b ∧ ¬ b <+: a)
    (fresh : ∀ steps ∈ fkSteps columns, out.FreshAt steps) (h : out.Within msg)
    (nested : ∀ col ∈ columns, ∀ target c s, col.fk = some target →
      (msg.inner col.path.owner).sub? col.path.field = some c → s.Within c → s.Listless →
      truthy (value col) ∧ ∃ d s', daoClass R.schema target = some d ∧
        recur target (value col) s = some s' ∧ Restores R.schema d c s s') :
    ∃ out', (columns.map fun col => (col, value col)).foldlM
        (loadCell R p dao recur (absentEmbeds (dao.columns.map fun col => (col, value col)))) out =
          some out' ∧
      msg.Fills (fkSteps columns) out out' ∧ ∀ col ∈ columns, ColumnKept R.schema msg out' col := by
  induction columns generalizing out with
  | nil => exact ⟨out, rfl, .refl _ h, fun col hcol => by cases hcol⟩
  | cons col columns ih =>
    have split_ : fkSteps (col :: columns) = fkSteps [col] ++ fkSteps columns := by
      rw [fkSteps, ← List.singleton_append, List.filter_append, List.map_append]
      rfl
    rw [split_, List.pairwise_append] at apart
    obtain ⟨_, later, across⟩ := apart
    obtain ⟨mid, first, fills, kept_⟩ := loadCell_fills readable holds wt (all col List.mem_cons_self) h
      (fun fk => fresh _ (by
        rw [split_]
        refine List.mem_append_left _ ?_
        simp [fkSteps, fk]))
      (nested col List.mem_cons_self)
    have freshMid : ∀ steps ∈ fkSteps columns, mid.FreshAt steps := fun steps hs =>
      (fresh steps (split_ ▸ List.mem_append_right _ hs)).fills fills.lists fun other ho =>
        (across other ho steps hs).symm
    obtain ⟨out', rest, fills', kept'⟩ := ih (fun c hc => all c (List.mem_cons_of_mem _ hc)) later
      freshMid fills.within fun c hc => nested c (List.mem_cons_of_mem _ hc)
    refine ⟨out', ?_, split_ ▸ fills.trans fills', fun c hc => ?_⟩
    · rw [List.map_cons, List.foldlM_cons, first]
      exact rest
    · rcases List.mem_cons.mp hc with rfl | hc
      · exact kept_.mono fills'.grows
      · exact kept' c hc

end Row

end Harpia
