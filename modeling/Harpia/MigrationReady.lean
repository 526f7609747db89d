import Harpia.MigrationChildContent

namespace Harpia

open Text Sqlite

/-- The table a child is renamed from. -/
def Child.oldTable (d : Declared) (c : Child) : Option String :=
  match c.shape with
  | .link _ => none
  | _ => c.renamedFrom.map fun old => d.table ++ "__" ++ old

/-- The live table a declared child takes its rows from. -/
def Declared.childSource (d : Declared) (db : Db) (c : Child) : Option String :=
  if c.table ∈ db.names then some c.table
  else
    match c.oldTable d with
    | some old => if old ∈ db.names then some old else none
    | none => none

/-- The rows of a declared child are in the live table `t`. -/
def Kept (d : Declared) (db : Db) (c : Child) (t : Table) : Prop :=
  ∃ n, d.childSource db c = some n ∧ db.get? n = some t

/-- The same source, but for a marker that names another declared child. -/
def Declared.childOrigin (d : Declared) (db : Db) (c : Child) : Option String :=
  (d.childSource db c).filter fun n => n = c.table ∨ n ∉ d.children.map Child.table

def HeldIn (d : Declared) (db : Db) (c : Child) (t : Table) : Prop :=
  ∃ n, d.childOrigin db c = some n ∧ db.get? n = some t

/-- No rename takes the table of a declared child. -/
def ChildrenStay (d : Declared) (db : Db) : Prop :=
  ∀ p ∈ firing d.childRenames db.names, p.1 ∉ d.children.map Child.table

def Declared.retypeTmp (d : Declared) : String := d.table ++ "__retype_tmp"

/-- What a version must find, before its migration and wherever that stops. -/
structure Fit (C : Casting) (d : Declared) (db : Db) : Prop where
  /-- names the version declares differ in more than case -/
  columns : (d.columns.map fun c => fold c.name).Nodup
  children : (d.children.map fun c => fold c.table).Nodup
  elements : ∀ c ∈ d.children, (foldedNames c.shape.columns).Nodup
  unreserved : ∀ e ∈ d.ddl, reserved e.1 = false
  version : ∀ t, db.get? versionTable = some t →
    t.columns = [⟨"name", .TEXT, false, false, false⟩, ⟨"version", .TEXT, false, false, false⟩]
  main : ∀ t, db.get? d.table = some t → MainReady C d t
  /-- the name the main table is rebuilt under is free -/
  tmp_free : ∀ t, db.get? d.table = some t → Drifts d t → db.get? d.retypeTmp = none ∧
    reserved d.retypeTmp = false ∧ ∀ c ∈ d.children, fold c.table ≠ fold d.retypeTmp
  /-- a live child table is spelled as it is declared -/
  spelled : ∀ c ∈ d.children, ∀ n ∈ db.names, fold n = fold c.table → n = c.table
  /-- no two children take their rows from the same live table -/
  claimed : ∀ c ∈ d.children, ∀ c' ∈ d.children, ∀ n, d.childOrigin db c = some n →
    d.childOrigin db c' = some n → c = c'
  child : ∀ c ∈ d.children, ∀ t, HeldIn d db c t → ChildReady C c.shape t
  /-- the name a child is rebuilt under is not declared, and what is live there goes -/
  child_tmp : ∀ c ∈ d.children, ∀ t, HeldIn d db c t → c.shape.fires t.columns →
    (∀ c' ∈ d.children, fold c'.table ≠ fold (c.shape.tmp c.table)) ∧
      ∀ n ∈ db.names, fold n = fold (c.shape.tmp c.table) → startsWith n (d.table ++ "__")

/-- What a version must find for its migration to go through and keep the data. -/
structure Ready (C : Casting) (d : Declared) (db : Db) : Prop where
  fit : Fit C d db
  columns_stay : ∀ t, db.get? d.table = some t → ColumnsStay d t
  children_stay : ChildrenStay d db

/-- Every row of the main table and of the kept child tables is there. -/
structure Carries (C : Casting) (d : Declared) (db db' : Db) : Prop where
  main : ∀ t, db.get? d.table = some t → ∃ t', db'.get? d.table = some t' ∧ MainCarries C d t t'
  child : ∀ c ∈ d.children, ∀ t, HeldIn d db c t →
    ∃ t', HeldIn d db' c t' ∧ ChildCarries C c.shape t t'

/-- The migration may stop at `db'`: nothing it has to carry is lost. -/
structure Resumable (C : Casting) (d : Declared) (db db' : Db) : Prop where
  fit : Fit C d db'
  carries : Carries C d db db'

section

variable {C : Casting} {d : Declared} {db db' db'' : Db} {c : Child}

theorem Resumable.refl (h : Fit C d db) : Resumable C d db db :=
  ⟨h, fun t ht => ⟨t, ht, .refl C d t⟩, fun c _ t ht => ⟨t, ht, .refl C c.shape t⟩⟩

theorem Resumable.trans (h₁ : Resumable C d db db') (h₂ : Resumable C d db' db'') :
    Resumable C d db db'' := by
  refine ⟨h₂.fit, fun t ht => ?_, fun c hc t ht => ?_⟩
  · obtain ⟨t₁, ht₁, carries₁⟩ := h₁.carries.main t ht
    obtain ⟨t₂, ht₂, carries₂⟩ := h₂.carries.main t₁ ht₁
    exact ⟨t₂, ht₂, carries₁.trans carries₂⟩
  · obtain ⟨t₁, ht₁, carries₁⟩ := h₁.carries.child c hc t ht
    obtain ⟨t₂, ht₂, carries₂⟩ := h₂.carries.child c hc t₁ ht₁
    exact ⟨t₂, ht₂, carries₁.trans carries₂⟩

theorem oldTable_eq_some {old : String} (h : c.oldTable d = some old) :
    ∃ suffix, old = d.table ++ "__" ++ suffix := by
  unfold Child.oldTable at h
  split at h
  · simp at h
  · obtain ⟨suffix, -, rfl⟩ := Option.map_eq_some_iff.mp h
    exact ⟨suffix, rfl⟩

theorem childSource_of_live (h : c.table ∈ db.names) : d.childSource db c = some c.table := by
  rw [Declared.childSource, if_pos h]

theorem childSource_of_missing (h : c.table ∉ db.names) {old : String}
    (ho : c.oldTable d = some old) (hl : old ∈ db.names) : d.childSource db c = some old := by
  simp [Declared.childSource, h, ho, hl]

theorem childSource_eq_some {n : String} (h : d.childSource db c = some n) :
    n ∈ db.names ∧ (n = c.table ∨ c.table ∉ db.names ∧ c.oldTable d = some n) := by
  unfold Declared.childSource at h
  split at h
  next hl =>
    cases Option.some.inj h
    exact ⟨hl, .inl rfl⟩
  next hl =>
    split at h
    next old ho =>
      split at h
      next hold =>
        cases Option.some.inj h
        exact ⟨hold, .inr ⟨hl, ho⟩⟩
      next => simp at h
    next => simp at h

theorem childOrigin_of_live (h : c.table ∈ db.names) : d.childOrigin db c = some c.table := by
  simp [Declared.childOrigin, childSource_of_live h]

theorem childOrigin_of_missing (h : c.table ∉ db.names) {old : String}
    (ho : c.oldTable d = some old) (hl : old ∈ db.names)
    (undeclared : old ∉ d.children.map Child.table) : d.childOrigin db c = some old := by
  rw [Declared.childOrigin, childSource_of_missing h ho hl]
  exact Option.filter_eq_some_iff.mpr ⟨rfl, decide_eq_true (.inr undeclared)⟩

theorem childOrigin_eq_some {n : String} (h : d.childOrigin db c = some n) :
    n ∈ db.names ∧ (n = c.table ∨
      c.table ∉ db.names ∧ c.oldTable d = some n ∧ n ∉ d.children.map Child.table) := by
  obtain ⟨hs, kept⟩ := Option.filter_eq_some_iff.mp h
  obtain ⟨live, own | ⟨missing, marked⟩⟩ := childSource_eq_some hs
  · exact ⟨live, .inl own⟩
  · rcases of_decide_eq_true kept with own | undeclared
    · exact ⟨live, .inl own⟩
    · exact ⟨live, .inr ⟨missing, marked, undeclared⟩⟩

theorem childOrigin_congr (hn : c.table ∈ db'.names ↔ c.table ∈ db.names)
    (ho : c.table ∉ db.names → ∀ old, c.oldTable d = some old →
      old ∉ d.children.map Child.table → (old ∈ db'.names ↔ old ∈ db.names)) :
    d.childOrigin db' c = d.childOrigin db c := by
  have one : ∀ {db db' : Db}, (c.table ∈ db'.names ↔ c.table ∈ db.names) →
      (c.table ∉ db.names → ∀ old, c.oldTable d = some old →
        old ∉ d.children.map Child.table → (old ∈ db'.names ↔ old ∈ db.names)) →
      ∀ n, d.childOrigin db c = some n → d.childOrigin db' c = some n := by
    intro db db' hn ho n h
    obtain ⟨live, rfl | ⟨missing, marked, undeclared⟩⟩ := childOrigin_eq_some h
    · exact childOrigin_of_live (hn.mpr live)
    · exact childOrigin_of_missing (fun h => missing (hn.mp h)) marked
        ((ho missing n marked undeclared).mpr live) undeclared
  refine Option.ext fun n => ⟨one hn.symm (fun missing old marked undeclared => ?_) n, one hn ho n⟩
  exact (ho (fun h => missing (hn.mpr h)) old marked undeclared).symm

theorem held_of_live (hn : c.table ∈ db.names) {t : Table} :
    HeldIn d db c t ↔ db.get? c.table = some t := by
  unfold HeldIn
  rw [childOrigin_of_live hn]
  simp

/-- Only the child itself takes its rows from its own table. -/
theorem origin_declared (h : Fit C d db) {c' : Child} (hc : c ∈ d.children) (hc' : c' ∈ d.children)
    (ho : d.childOrigin db c' = some c.table) : c' = c := by
  obtain ⟨-, own | ⟨-, -, undeclared⟩⟩ := childOrigin_eq_some ho
  · exact childDeclared_unique h.children hc' hc (congrArg fold own.symm)
  · exact absurd (List.mem_map_of_mem hc) undeclared

theorem fold_prefixed_ne {n : String} (h : startsWith n (d.table ++ "__")) :
    fold n ≠ fold d.table ∧ fold n ≠ fold versionTable := by
  obtain ⟨suffix, rfl⟩ := startsWith_iff.mp h
  refine ⟨fold_child_ne suffix, ?_⟩
  rw [String.append_assoc]
  exact fold_ne_versionTable d _

theorem Declared.retypeTmp_prefixed (d : Declared) : startsWith d.retypeTmp (d.table ++ "__") :=
  startsWith_iff.mpr ⟨"retype_tmp", by rw [String.append_assoc]; rfl⟩

theorem tmp_prefixed (hc : c ∈ d.children) :
    startsWith (c.shape.tmp c.table) (d.table ++ "__") := by
  obtain ⟨suffix, hs⟩ := d.child_named c hc
  refine startsWith_iff.mpr ?_
  rw [hs]
  cases c.shape <;> exact ⟨_, String.append_assoc⟩

theorem fold_oldTable_ne {old : String} (h : c.oldTable d = some old) :
    fold old ≠ fold d.table ∧ fold old ≠ fold versionTable :=
  fold_prefixed_ne (startsWith_iff.mpr (oldTable_eq_some h))

/-- A change to a table that is neither a declared child nor the source of one. -/
theorem resumable_beside {x : String} (h : Fit C d db) (b : Beside x db db')
    (hchild : ∀ c ∈ d.children, fold c.table ≠ fold x)
    (hold : ∀ c ∈ d.children, c.table ∉ db.names → ∀ old, c.oldTable d = some old →
      fold old ≠ fold x)
    (hversion : ∀ t, db'.get? versionTable = some t → t.columns =
      [⟨"name", .TEXT, false, false, false⟩, ⟨"version", .TEXT, false, false, false⟩])
    (hmain : ∀ t, db.get? d.table = some t → ∃ t', db'.get? d.table = some t' ∧ MainStep C d t t')
    (hnew : db.get? d.table = none → ∀ t', db'.get? d.table = some t' →
      MainReady C d t' ∧ ¬ Drifts d t')
    (htmp : db.get? d.retypeTmp = none → db'.get? d.retypeTmp = none)
    (hnames : ∀ n ∈ db'.names, fold n = fold x → n ∈ db.names ∨ startsWith n (d.table ++ "__") ∨
      ∀ c ∈ d.children, fold n ≠ fold (c.shape.tmp c.table)) : Resumable C d db db' := by
  have live : ∀ c ∈ d.children, (c.table ∈ db'.names ↔ c.table ∈ db.names) :=
    fun c hc => b.names _ (hchild c hc)
  have source : ∀ c ∈ d.children, d.childOrigin db' c = d.childOrigin db c := fun c hc =>
    childOrigin_congr (live c hc) fun hl old ho _ => b.names _ (hold c hc hl old ho)
  have kept : ∀ c ∈ d.children, ∀ t, HeldIn d db' c t ↔ HeldIn d db c t := by
    intro c hc t
    unfold HeldIn
    rw [source c hc]
    refine exists_congr fun n => and_congr_right fun hs => ?_
    rw [b.tables]
    rcases (childOrigin_eq_some hs).2 with rfl | ⟨hl, ho, -⟩
    · exact hchild c hc
    · exact hold c hc hl n ho
  have step : ∀ t', db'.get? d.table = some t' → MainReady C d t' ∧
      (Drifts d t' → ∃ t, db.get? d.table = some t ∧ Drifts d t) := by
    intro t' ht'
    cases ht : db.get? d.table with
    | none => exact ⟨(hnew ht t' ht').1, fun hd => absurd hd (hnew ht t' ht').2⟩
    | some t =>
      obtain ⟨t₁, ht₁, hs⟩ := hmain t ht
      cases Option.some.inj (ht'.symm.trans ht₁)
      exact ⟨hs.ready, fun hd => ⟨t, rfl, hs.drifts hd⟩⟩
  refine ⟨⟨h.columns, h.children, h.elements, h.unreserved, hversion,
    fun t' ht' => (step t' ht').1, ?_, ?_, ?_, ?_, ?_⟩, ⟨?_, ?_⟩⟩
  · intro t' ht' hd
    obtain ⟨t, ht, hd⟩ := (step t' ht').2 hd
    exact ⟨htmp (h.tmp_free t ht hd).1, (h.tmp_free t ht hd).2⟩
  · intro c hc n hn hf
    refine h.spelled c hc n ((b.names n ?_).mp hn) hf
    rw [hf]
    exact hchild c hc
  · intro c hc c' hc' n hs hs'
    exact h.claimed c hc c' hc' n (source c hc ▸ hs) (source c' hc' ▸ hs')
  · exact fun c hc t ht => h.child c hc t ((kept c hc t).mp ht)
  · intro c hc t ht hf
    obtain ⟨hdecl, hlive⟩ := h.child_tmp c hc t ((kept c hc t).mp ht) hf
    refine ⟨hdecl, fun n hn he => ?_⟩
    by_cases hx : fold n = fold x
    · rcases hnames n hn hx with hn | hs | hne
      · exact hlive n hn he
      · exact hs
      · exact absurd he (hne c hc)
    · exact hlive n ((b.names n hx).mp hn) he
  · intro t ht
    obtain ⟨t', ht', hs⟩ := hmain t ht
    exact ⟨t', ht', hs.carries⟩
  · exact fun c hc t ht => ⟨t, (kept c hc t).mpr ht, .refl C c.shape t⟩

/-- A change to a declared child that is live, or that had no table so far. -/
theorem resumable_child (h : Fit C d db) (hc : c ∈ d.children) (b : Beside c.table db db')
    (hlive : c.table ∈ db'.names)
    (hstep : ∀ t', db'.get? c.table = some t' → ChildReady C c.shape t' ∧
      (c.shape.fires t'.columns → ∃ t, HeldIn d db c t ∧ c.shape.fires t.columns))
    (hcarry : ∀ t, HeldIn d db c t → ∃ t', db'.get? c.table = some t' ∧ ChildCarries C c.shape t t') :
    Resumable C d db db' := by
  have other : ∀ c' ∈ d.children, c' ≠ c → fold c'.table ≠ fold c.table :=
    fun c' hc' hne he => hne (childDeclared_unique h.children hc' hc he)
  have old_ne : ∀ old, old ∉ d.children.map Child.table → old ∈ db.names ∨ old ∈ db'.names →
      fold old ≠ fold c.table := by
    intro old undeclared hor hf
    have same : old = c.table := by
      rcases hor with hold | hold
      · exact h.spelled c hc old hold hf
      · exact Db.names_unique hold hlive hf
    exact undeclared (same ▸ List.mem_map_of_mem hc)
  have origin : ∀ c' ∈ d.children, c' ≠ c → d.childOrigin db' c' = d.childOrigin db c' := by
    intro c' hc' hne
    refine childOrigin_congr (b.names _ (other c' hc' hne)) fun _ old _ undeclared => ?_
    constructor
    · exact fun hold => (b.names old (old_ne old undeclared (.inr hold))).mp hold
    · exact fun hold => (b.names old (old_ne old undeclared (.inl hold))).mpr hold
  have held : ∀ c' ∈ d.children, c' ≠ c → ∀ t, HeldIn d db' c' t ↔ HeldIn d db c' t := by
    intro c' hc' hne t
    unfold HeldIn
    rw [origin c' hc' hne]
    refine exists_congr fun n => and_congr_right fun hs => ?_
    rw [b.tables]
    obtain ⟨hn, rfl | ⟨-, -, undeclared⟩⟩ := childOrigin_eq_some hs
    · exact other c' hc' hne
    · exact old_ne n undeclared (.inl hn)
  have own : d.childOrigin db' c = some c.table := childOrigin_of_live hlive
  have main : db'.get? d.table = db.get? d.table := b.tables _ (childTable_ne hc).1.symm
  have tmp_names : ∀ c' ∈ d.children,
      ((∀ c'' ∈ d.children, fold c''.table ≠ fold (c'.shape.tmp c'.table)) ∧
        ∀ n ∈ db.names, fold n = fold (c'.shape.tmp c'.table) → startsWith n (d.table ++ "__")) →
      ∀ n ∈ db'.names, fold n = fold (c'.shape.tmp c'.table) → startsWith n (d.table ++ "__") := by
    rintro c' hc' ⟨hdecl, hnames⟩ n hn he
    refine hnames n ((b.names n fun hf => ?_).mp hn) he
    exact hdecl c hc (hf.symm.trans he)
  refine ⟨⟨h.columns, h.children, h.elements, h.unreserved, ?_, fun t ht => h.main t (main ▸ ht), ?_,
    ?_, ?_, ?_, ?_⟩, ⟨fun t ht => ⟨t, main ▸ ht, .refl C d t⟩, ?_⟩⟩
  · intro t ht
    rw [b.tables _ (childTable_ne hc).2.1.symm] at ht
    exact h.version t ht
  · intro t ht hd
    obtain ⟨free, unreserved, hne⟩ := h.tmp_free t (main ▸ ht) hd
    exact ⟨by rw [b.tables _ (hne c hc).symm, free], unreserved, hne⟩
  · intro c' hc' n hn hf
    by_cases hne : c' = c
    · subst hne
      exact Db.names_unique hn hlive hf
    · refine h.spelled c' hc' n ((b.names n ?_).mp hn) hf
      rw [hf]
      exact other c' hc' hne
  · intro c₁ h₁ c₂ h₂ n hs₁ hs₂
    by_cases e₁ : c₁ = c <;> by_cases e₂ : c₂ = c
    · rw [e₁, e₂]
    · rw [e₁, own] at hs₁
      rw [origin c₂ h₂ e₂, ← hs₁] at hs₂
      exact absurd (origin_declared h hc h₂ hs₂) e₂
    · rw [e₂, own] at hs₂
      rw [origin c₁ h₁ e₁, ← hs₂] at hs₁
      exact absurd (origin_declared h hc h₁ hs₁) e₁
    · rw [origin c₁ h₁ e₁] at hs₁
      rw [origin c₂ h₂ e₂] at hs₂
      exact h.claimed c₁ h₁ c₂ h₂ n hs₁ hs₂
  · intro c' hc' t ht
    by_cases hne : c' = c
    · subst hne
      exact (hstep t ((held_of_live hlive).mp ht)).1
    · exact h.child c' hc' t ((held c' hc' hne t).mp ht)
  · intro c' hc' t ht hf
    have before : ∃ t₀, HeldIn d db c' t₀ ∧ c'.shape.fires t₀.columns := by
      by_cases hne : c' = c
      · subst hne
        exact (hstep t ((held_of_live hlive).mp ht)).2 hf
      · exact ⟨t, (held c' hc' hne t).mp ht, hf⟩
    obtain ⟨t₀, ht₀, hf₀⟩ := before
    have tmp := h.child_tmp c' hc' t₀ ht₀ hf₀
    exact ⟨tmp.1, tmp_names c' hc' tmp⟩
  · intro c' hc' t ht
    by_cases hne : c' = c
    · subst hne
      obtain ⟨t', ht', hcar⟩ := hcarry t ht
      exact ⟨t', (held_of_live hlive).mpr ht', hcar⟩
    · exact ⟨t, (held c' hc' hne t).mpr ht, .refl C c'.shape t⟩

/-- `db'` is `db` with `old`, the origin of the missing child `c`, renamed to it. -/
structure Relocated (C : Casting) (d : Declared) (c : Child) (old : String) (db db' : Db) :
    Prop where
  declared : c ∈ d.children
  missing : c.table ∉ db.names
  origin : d.childOrigin db c = some old
  step : exec C (.renameTable old c.table) db = some db'

section Relocate

variable {old : String}

theorem Relocated.live (r : Relocated C d c old db db') : old ∈ db.names :=
  (childOrigin_eq_some r.origin).1

theorem Relocated.marked (r : Relocated C d c old db db') :
    c.oldTable d = some old ∧ old ∉ d.children.map Child.table := by
  obtain ⟨live, rfl | ⟨-, marked⟩⟩ := childOrigin_eq_some r.origin
  · exact absurd live r.missing
  · exact marked

theorem Relocated.names (r : Relocated C d c old db db') (n : String) :
    n ∈ db'.names ↔ n ∈ db.names ∧ n ≠ old ∨ n = c.table := mem_names_renameTable r.step r.live

theorem Relocated.get (r : Relocated C d c old db db') {n : String}
    (h₁ : fold n ≠ fold c.table) (h₂ : fold n ≠ fold old) : db'.get? n = db.get? n := by
  refine exec_frame r.step fun m hm => ?_
  rcases List.mem_cons.mp hm with rfl | hm
  · exact h₂
  · exact List.mem_singleton.mp hm ▸ h₁

theorem Relocated.own (r : Relocated C d c old db db') : db'.get? c.table = db.get? old := by
  obtain ⟨-, t, ht, -, rfl⟩ := exec_renameTable r.step
  rw [Db.get?_put_self, ht]

theorem Relocated.fold_ne_old (r : Relocated C d c old db db') (h : Fit C d db) {c' : Child}
    (hc' : c' ∈ d.children) : fold c'.table ≠ fold old := by
  intro he
  have same := h.spelled c' hc' old r.live he.symm
  exact r.marked.2 (same ▸ List.mem_map_of_mem hc')

/-- Every other declared child keeps its origin, which is another table. -/
theorem Relocated.other (r : Relocated C d c old db db') (h : Fit C d db) {c' : Child}
    (hc' : c' ∈ d.children) (hne : c' ≠ c) : d.childOrigin db' c' = d.childOrigin db c' ∧
      ∀ n, d.childOrigin db c' = some n → fold n ≠ fold c.table ∧ fold n ≠ fold old := by
  have name_ne : c'.table ≠ c.table :=
    fun he => hne (childDeclared_unique h.children hc' r.declared (congrArg fold he))
  have apart : ∀ n, d.childOrigin db c' = some n → n ≠ old := by
    rintro n hs rfl
    exact hne (h.claimed c' hc' c r.declared n hs r.origin)
  constructor
  · refine childOrigin_congr ?_ fun hl n ho undeclared => ?_
    · rw [r.names]
      refine ⟨fun hn => (hn.resolve_right name_ne).1, fun hn => .inl ⟨hn, ?_⟩⟩
      exact fun he => r.fold_ne_old h hc' (congrArg fold he)
    · have n_ne : n ≠ c.table := fun he => undeclared (he ▸ List.mem_map_of_mem r.declared)
      rw [r.names]
      constructor
      · exact fun hn => (hn.resolve_right n_ne).1
      · exact fun hn => .inl ⟨hn, apart n (childOrigin_of_missing hl ho hn undeclared)⟩
  · intro n hs
    have hn := (childOrigin_eq_some hs).1
    constructor
    · exact fun hf => r.missing (h.spelled c r.declared n hn hf ▸ hn)
    · exact fun hf => apart n hs (Db.names_unique hn r.live hf)

/-- Every declared child holds the rows it held. -/
theorem Relocated.held_iff (r : Relocated C d c old db db') (h : Fit C d db) {c' : Child}
    (hc' : c' ∈ d.children) (t : Table) : HeldIn d db' c' t ↔ HeldIn d db c' t := by
  by_cases hne : c' = c
  · subst hne
    rw [held_of_live ((r.names _).mpr (.inr rfl)), r.own]
    unfold HeldIn
    rw [r.origin]
    simp
  · obtain ⟨same, apart⟩ := r.other h hc' hne
    unfold HeldIn
    rw [same]
    refine exists_congr fun n => and_congr_right fun hs => ?_
    rw [r.get (apart n hs).1 (apart n hs).2]

theorem Relocated.claimed (r : Relocated C d c old db db') (h : Fit C d db) {c₁ c₂ : Child}
    (h₁ : c₁ ∈ d.children) (h₂ : c₂ ∈ d.children) {n : String}
    (hs₁ : d.childOrigin db' c₁ = some n) (hs₂ : d.childOrigin db' c₂ = some n) : c₁ = c₂ := by
  have own : d.childOrigin db' c = some c.table := childOrigin_of_live ((r.names _).mpr (.inr rfl))
  have named : ∀ c' ∈ d.children, c' ≠ c → d.childOrigin db' c' ≠ some c.table := by
    intro c' hc' hne hs
    obtain ⟨same, apart⟩ := r.other h hc' hne
    rw [same] at hs
    exact (apart _ hs).1 rfl
  by_cases e₁ : c₁ = c <;> by_cases e₂ : c₂ = c
  · rw [e₁, e₂]
  · rw [e₁, own] at hs₁
    exact absurd (hs₁ ▸ hs₂) (named c₂ h₂ e₂)
  · rw [e₂, own] at hs₂
    exact absurd (hs₂ ▸ hs₁) (named c₁ h₁ e₁)
  · rw [(r.other h h₁ e₁).1] at hs₁
    rw [(r.other h h₂ e₂).1] at hs₂
    exact h.claimed c₁ h₁ c₂ h₂ n hs₁ hs₂

theorem Relocated.main (r : Relocated C d c old db db') : db'.get? d.table = db.get? d.table :=
  r.get (childTable_ne r.declared).1.symm (fold_oldTable_ne r.marked.1).1.symm

theorem Relocated.fit (r : Relocated C d c old db db') (h : Fit C d db) : Fit C d db' where
  columns := h.columns
  children := h.children
  elements := h.elements
  unreserved := h.unreserved
  version t ht := by
    rw [r.get (childTable_ne r.declared).2.1.symm (fold_oldTable_ne r.marked.1).2.symm] at ht
    exact h.version t ht
  main t ht := h.main t (r.main ▸ ht)
  tmp_free t ht hd := by
    obtain ⟨free, unreserved, hne⟩ := h.tmp_free t (r.main ▸ ht) hd
    have apart : fold d.retypeTmp ≠ fold old := by
      intro hf
      obtain ⟨t', ht'⟩ := Db.exists_get?_of_mem_names r.live
      rw [db.get?_congr hf, ht'] at free
      simp at free
    exact ⟨by rw [r.get (hne c r.declared).symm apart, free], unreserved, hne⟩
  spelled c' hc' n hn hf := by
    rcases (r.names n).mp hn with ⟨hn, -⟩ | rfl
    · exact h.spelled c' hc' n hn hf
    · rw [childDeclared_unique h.children r.declared hc' hf]
  claimed _ h₁ _ h₂ _ hs₁ hs₂ := r.claimed h h₁ h₂ hs₁ hs₂
  child c' hc' t ht := h.child c' hc' t ((r.held_iff h hc' t).mp ht)
  child_tmp c' hc' t ht hf := by
    obtain ⟨hdecl, hnames⟩ := h.child_tmp c' hc' t ((r.held_iff h hc' t).mp ht) hf
    refine ⟨hdecl, fun n hn he => ?_⟩
    rcases (r.names n).mp hn with ⟨hn, -⟩ | rfl
    · exact hnames n hn he
    · exact absurd he (hdecl c r.declared)

theorem Relocated.resumable (r : Relocated C d c old db db') (h : Fit C d db) :
    Resumable C d db db' where
  fit := r.fit h
  carries := ⟨fun t ht => ⟨t, r.main ▸ ht, .refl C d t⟩,
    fun c' hc' t ht => ⟨t, (r.held_iff h hc' t).mpr ht, .refl C c'.shape t⟩⟩

end Relocate

theorem Fit.unreserved_child (h : Fit C d db) (hc : c ∈ d.children) : reserved c.table = false :=
  h.unreserved (c.table, c.shape.columns, c.shape.key)
    (List.mem_cons_of_mem _ (List.mem_map_of_mem hc))

theorem Fit.unreserved_main (h : Fit C d db) : reserved d.table = false :=
  h.unreserved (d.table, d.columns.map Column.sqlDef, []) List.mem_cons_self

/-- Renaming the origin of a missing child goes through. -/
theorem relocates (h : Fit C d db) (hc : c ∈ d.children) (habs : c.table ∉ db.names)
    {old : String} (ho : d.childOrigin db c = some old) : ∃ db', Relocated C d c old db db' := by
  obtain ⟨t, ht⟩ := Db.exists_get?_of_mem_names (childOrigin_eq_some ho).1
  have free : db.get? c.table = none := by
    cases hg : db.get? c.table with
    | none => rfl
    | some u =>
      obtain ⟨n, hn, hf⟩ := Db.exists_name_of_get? hg
      exact absurd (h.spelled c hc n hn hf ▸ hn) habs
  exact ⟨_, hc, habs, ho, exec_renameTable_live (h.unreserved_child hc) ht free⟩

end

end Harpia
