import Harpia.Lib.ProtoOrder

namespace Proto

namespace Msg

/-- The field holds the same in both; the messages that it holds are left to their own fields. -/
structure SameField (a b : Msg) (name : String) : Prop where
  scalar : b.scalar? name = a.scalar? name
  map : b.map name = a.map name
  list : b.list name = a.list name
  sub : (b.sub? name).isSome = (a.sub? name).isSome
  elements : (b.elements name).length = (a.elements name).length

/-- The two messages, and those below them, hold the same in every field but the key. -/
def Rekeyed (key : String) (a b : Msg) : Prop :=
  ∀ path : List Step, (∀ step ∈ path, step.name ≠ key) → ∀ name, name ≠ key →
    SameField (a.under path) (b.under path) name

variable {key : String} {a b c : Msg}

theorem SameField.of_get? {name : String} (h : b.get? name = a.get? name) : SameField a b name := by
  constructor
  · simp only [scalar?, h]
  · simp only [Msg.map, h]
  · simp only [Msg.list, h]
  · simp only [sub?, h]
  · simp only [Msg.elements, h]

theorem SameField.trans {name : String} (h : SameField a b name) (h' : SameField b c name) :
    SameField a c name :=
  ⟨h'.scalar.trans h.scalar, h'.map.trans h.map, h'.list.trans h.list, h'.sub.trans h.sub,
    h'.elements.trans h.elements⟩

namespace Rekeyed

theorem refl (key : String) (a : Msg) : Rekeyed key a a := fun _ _ _ _ => .of_get? rfl

theorem trans (h : Rekeyed key a b) (h' : Rekeyed key b c) : Rekeyed key a c :=
  fun path apart name other => (h path apart name other).trans (h' path apart name other)

theorem of_children (here : ∀ name, name ≠ key → SameField a b name)
    (below : ∀ step : Step, step.name ≠ key → Rekeyed key (a.child step) (b.child step)) :
    Rekeyed key a b := by
  intro path apart name other
  cases path with
  | nil => exact here name other
  | cons step path =>
    apply below step (apart step List.mem_cons_self) path _ name other
    exact fun s hs => apart s (List.mem_cons_of_mem _ hs)

end Rekeyed

theorem rekeyed_set_key (key : String) (a : Msg) (c : Option (Content Msg)) :
    Rekeyed key a (a.set key c) := by
  have same : ∀ name, name ≠ key → (a.set key c).get? name = a.get? name := by
    intro name other
    rw [get?_set, if_neg other]
  apply Rekeyed.of_children
  · exact fun name other => .of_get? (same name other)
  · intro step other
    rw [child_congr (same step.name other)]
    exact .refl key _

/-- What a change of one field has to show. -/
theorem rekeyed_set {name : String} {x : Option (Content Msg)}
    (here : name ≠ key → SameField a (a.set name x) name)
    (below : ∀ step : Step, step.name = name → Rekeyed key (a.child step) ((a.set name x).child step)) :
    Rekeyed key a (a.set name x) := by
  have same : ∀ n, n ≠ name → (a.set name x).get? n = a.get? n := by
    intro n other
    rw [get?_set, if_neg other]
  apply Rekeyed.of_children
  · intro n other
    by_cases hn : n = name
    · subst hn
      exact here other
    · exact .of_get? (same n hn)
  · intro step _
    by_cases hn : step.name = name
    · exact below step hn
    · rw [child_congr (same step.name hn)]
      exact .refl key _

theorem rekeyed_set_sub {name : String} {o o' : Msg} (held : a.sub? name = some o)
    (h : Rekeyed key o o') : Rekeyed key a (a.set name (some (.sub o'))) := by
  have was := get?_of_sub? held
  have now : (a.set name (some (.sub o'))).get? name = some (.sub o') := by rw [get?_set, if_pos rfl]
  apply rekeyed_set
  · intro _
    constructor
    · simp only [scalar?, was, now]
    · simp only [Msg.map, was, now]
    · simp only [Msg.list, was, now]
    · simp only [sub?, was, now, Option.isSome_some]
    · simp only [Msg.elements, was, now]
  · intro step hn
    cases step with
    | field n =>
      obtain rfl : n = name := hn
      simp only [child, sub?, was, now, Option.getD_some]
      exact h
    | element n i =>
      obtain rfl : n = name := hn
      simp only [child, Msg.elements, was, now]
      exact .refl key _

theorem rekeyed_set_elements {name : String} {items : List Msg} (some_ : a.elements name ≠ [])
    (h : List.Forall₂ (Rekeyed key) (a.elements name) items) :
    Rekeyed key a (a.set name (some (.elements items))) := by
  obtain ⟨ms, was⟩ : ∃ ms, a.get? name = some (.elements ms) := by
    revert some_
    unfold Msg.elements
    split
    next ms hg => exact fun _ => ⟨ms, hg⟩
    next => exact fun h => absurd rfl h
  have now : (a.set name (some (.elements items))).get? name = some (.elements items) := by
    rw [get?_set, if_pos rfl]
  have held : a.elements name = ms := by simp only [Msg.elements, was]
  rw [held] at h
  apply rekeyed_set
  · intro _
    constructor
    · simp only [scalar?, was, now]
    · simp only [Msg.map, was, now]
    · simp only [Msg.list, was, now]
    · simp only [sub?, was, now]
    · simp only [Msg.elements, was, now]
      exact h.length_eq.symm
  · intro step hn
    cases step with
    | field n =>
      obtain rfl : n = name := hn
      simp only [child, sub?, was, now]
      exact .refl key _
    | element n i =>
      obtain rfl : n = name := hn
      simp only [child, Msg.elements, was, now]
      by_cases hi : i < ms.length
      · have hi' : i < items.length := h.length_eq ▸ hi
        rw [List.getElem?_eq_getElem hi, List.getElem?_eq_getElem hi']
        exact h.get hi hi'
      · have hi' : items.length ≤ i := by
          rw [← h.length_eq]
          omega
        rw [List.getElem?_eq_none (by omega), List.getElem?_eq_none hi']
        exact .refl key _

theorem rekeyed_modify {f : Msg → Option Msg} {path : List String} {o : Msg}
    (there : a.at? path = some o) (each : ∀ o', f o = some o' → Rekeyed key o o')
    (h : a.modify f path = some b) : Rekeyed key a b := by
  induction path generalizing a b with
  | nil =>
    cases there
    exact each b h
  | cons name path ih =>
    obtain ⟨c, hc, there⟩ := Option.bind_eq_some_iff.mp there
    obtain ⟨c', hc', rfl⟩ := Option.map_eq_some_iff.mp h
    rw [hc, Option.getD_some] at hc'
    exact rekeyed_set_sub hc (ih there hc')

end Msg

end Proto
