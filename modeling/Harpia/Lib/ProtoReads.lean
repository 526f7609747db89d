import Harpia.Lib.Proto

namespace Proto

namespace Msg

/-- The two messages hold the same values; which of their message fields are set is left open. -/
structure SameReads (m m' : Msg) : Prop where
  scalar : ∀ name, m'.scalar? name = m.scalar? name
  map : ∀ name, m'.map name = m.map name
  list : ∀ name, m'.list name = m.list name
  elements : ∀ name, m'.elements name = m.elements name

theorem SameReads.refl (m : Msg) : SameReads m m :=
  ⟨fun _ => rfl, fun _ => rfl, fun _ => rfl, fun _ => rfl⟩

/-- The same values stand at every depth. -/
def Agrees (m m' : Msg) : Prop := ∀ path, SameReads (m.inner path) (m'.inner path)

theorem Agrees.refl (m : Msg) : Agrees m m := fun _ => .refl _

theorem Agrees.trans {a b c : Msg} (h : Agrees a b) (h' : Agrees b c) : Agrees a c := fun path =>
  ⟨fun n => ((h' path).scalar n).trans ((h path).scalar n),
    fun n => ((h' path).map n).trans ((h path).map n),
    fun n => ((h' path).list n).trans ((h path).list n),
    fun n => ((h' path).elements n).trans ((h path).elements n)⟩

@[simp] theorem inner_nil (m : Msg) : m.inner [] = m := rfl

theorem inner_empty (path : List String) : empty.inner path = empty := by
  cases path with
  | nil => rfl
  | cons name path => rfl

theorem inner_cons (m : Msg) (name : String) (path : List String) :
    m.inner (name :: path) = ((m.sub? name).getD empty).inner path := by
  cases h : m.sub? name with
  | none =>
    have absent : m.at? (name :: path) = none := by simp [at?, h]
    rw [inner, absent, Option.getD_none, inner_empty]
  | some c =>
    have below : m.at? (name :: path) = c.at? path := by simp [at?, h]
    rw [inner, below, Option.getD_some, inner]

theorem sameReads_of_get? {m m' : Msg} (h : ∀ n, m'.get? n = m.get? n ∨
    (∃ c c', m.get? n = some (.sub c) ∧ m'.get? n = some (.sub c'))) : SameReads m m' := by
  constructor
  all_goals
    intro n
    rcases h n with same | ⟨c, c', hc, hc'⟩
    · simp only [scalar?, Msg.map, Msg.list, Msg.elements, same]
    · simp only [scalar?, Msg.map, Msg.list, Msg.elements, hc, hc']

theorem get?_of_sub? {m c : Msg} {name : String} (h : m.sub? name = some c) :
    m.get? name = some (.sub c) := by
  unfold sub? at h
  split at h
  next _ hg =>
    cases h
    exact hg
  next => cases h

theorem sub?_set_other (m : Msg) {name n : String} (h : n ≠ name) (c : Option (Content Msg)) :
    (m.set name c).sub? n = m.sub? n := by
  simp only [sub?, get?_set, if_neg h]

theorem sub?_set_sub (m c : Msg) (name : String) : (m.set name (some (.sub c))).sub? name = some c := by
  simp only [sub?, get?_set, if_pos]

/-- The same values stand at every depth, and the same message fields are set. -/
structure Alike (m m' : Msg) : Prop where
  agrees : Agrees m m'
  subs : ∀ path name, ((m'.inner path).sub? name).isSome = ((m.inner path).sub? name).isSome

theorem Alike.refl (m : Msg) : Alike m m := ⟨.refl m, fun _ _ => rfl⟩

theorem Alike.trans {a b c : Msg} (h : Alike a b) (h' : Alike b c) : Alike a c :=
  ⟨h.agrees.trans h'.agrees, fun path name => (h'.subs path name).trans (h.subs path name)⟩

theorem inner_append (m : Msg) (path rest : List String) :
    m.inner (path ++ rest) = (m.inner path).inner rest := by
  induction path generalizing m with
  | nil => rfl
  | cons name path ih => rw [List.cons_append, inner_cons, inner_cons, ih]

theorem Alike.inner {m m' : Msg} (h : Alike m m') (path : List String) :
    Alike (m.inner path) (m'.inner path) := by
  refine ⟨fun rest => ?_, fun rest name => ?_⟩
  · rw [← inner_append, ← inner_append]
    exact h.agrees (path ++ rest)
  · rw [← inner_append, ← inner_append]
    exact h.subs (path ++ rest) name

/-- A change that keeps the values of one message keeps them in the message around it. -/
theorem modify_alike {f : Msg → Option Msg} {path : List String} {m o m' : Msg}
    (there : m.at? path = some o)
    (keeps : ∀ o', f o = some o' → SameReads o o' ∧ ∀ n, o'.sub? n = o.sub? n)
    (h : m.modify f path = some m') : Alike m m' := by
  induction path generalizing m m' with
  | nil =>
    cases there
    obtain ⟨reads, subs⟩ := keeps m' h
    refine ⟨fun path => ?_, fun path n => ?_⟩
    · cases path with
      | nil => exact reads
      | cons name path =>
        rw [inner_cons, inner_cons, subs]
        exact .refl _
    · cases path with
      | nil => rw [inner_nil, inner_nil, subs]
      | cons name path => rw [inner_cons, inner_cons, subs]
  | cons name path ih =>
    obtain ⟨c, hc, there⟩ := Option.bind_eq_some_iff.mp there
    obtain ⟨c', hc', rfl⟩ := Option.map_eq_some_iff.mp h
    rw [hc, Option.getD_some] at hc'
    have inner := ih there hc'
    refine ⟨fun other => ?_, fun other n' => ?_⟩
    · cases other with
      | nil =>
        refine sameReads_of_get? fun n => ?_
        by_cases hn : n = name
        · subst hn
          exact .inr ⟨c, c', get?_of_sub? hc, by simp⟩
        · exact .inl (by rw [inner_nil, inner_nil, get?_set, if_neg hn])
      | cons n other =>
        rw [inner_cons, inner_cons]
        by_cases hn : n = name
        · subst hn
          rw [sub?_set_sub, hc]
          exact inner.agrees other
        · rw [sub?_set_other m hn]
          exact .refl _
    · cases other with
      | nil =>
        rw [inner_nil, inner_nil]
        by_cases hn : n' = name
        · subst hn
          rw [sub?_set_sub, hc, Option.isSome_some, Option.isSome_some]
        · rw [sub?_set_other m hn]
      | cons n other =>
        rw [inner_cons, inner_cons]
        by_cases hn : n = name
        · subst hn
          rw [sub?_set_sub, hc]
          exact inner.subs other n'
        · rw [sub?_set_other m hn]

/-- A message field may be set to the message it holds. -/
theorem set_sub_keeps {o c : Msg} {name : String} (h : o.sub? name = some c) :
    SameReads o (o.set name (some (.sub c))) ∧
      ∀ n, (o.set name (some (.sub c))).sub? n = o.sub? n := by
  have same : ∀ n, (o.set name (some (.sub c))).get? n = o.get? n := by
    intro n
    rw [get?_set]
    split
    next hn => rw [hn, get?_of_sub? h]
    next => rfl
  exact ⟨sameReads_of_get? fun n => .inl (same n), fun n => by simp only [sub?, same n]⟩

theorem at?_of_sub? {m c : Msg} {path : List String} {name : String}
    (h : (m.inner path).sub? name = some c) : m.at? path = some (m.inner path) := by
  cases hp : m.at? path with
  | none => simp [inner, hp, sub?] at h
  | some o => rw [inner, hp, Option.getD_some]

theorem at?_of_elements {m : Msg} {path : List String} {name : String}
    (h : (m.inner path).elements name ≠ []) : m.at? path = some (m.inner path) := by
  cases hp : m.at? path with
  | none => simp [inner, hp, elements] at h
  | some o => rw [inner, hp, Option.getD_some]

/-- The elements that a field holds may be put back. -/
theorem set_elements_keeps {o : Msg} {name : String} (h : o.elements name ≠ []) :
    SameReads o (o.set name (some (.elements (o.elements name)))) ∧
      ∀ n, (o.set name (some (.elements (o.elements name)))).sub? n = o.sub? n := by
  have held : o.get? name = some (.elements (o.elements name)) := by
    revert h
    unfold elements
    split
    next ms hg => exact fun _ => hg
    next => exact fun h => absurd rfl h
  have same : ∀ n, (o.set name (some (.elements (o.elements name)))).get? n = o.get? n := by
    intro n
    rw [get?_set]
    split
    next hn => rw [hn, held]
    next => rfl
  exact ⟨sameReads_of_get? fun n => .inl (same n), fun n => by simp only [sub?, same n]⟩

end Msg

end Proto
