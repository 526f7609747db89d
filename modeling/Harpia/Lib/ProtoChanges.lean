import Harpia.Lib.ProtoReads

namespace Proto

namespace Msg

/-- The two hold the same, or a message each. -/
def SameKind (x y : Option (Content Msg)) : Prop :=
  y = x ∨ ∃ c c', x = some (.sub c) ∧ y = some (.sub c')

theorem SameKind.refl (x : Option (Content Msg)) : SameKind x x := .inl rfl

/-- From `a` to `b` nothing has changed but what stands at or below some fields. -/
structure Changed (fields : List (List String)) (a b : Msg) : Prop where
  same : ∀ path name, (∀ f ∈ fields, ¬ f <+: path ++ [name] ∧ ¬ path ++ [name] <+: f) →
    (b.inner path).get? name = (a.inner path).get? name
  kind : ∀ path name, (∀ f ∈ fields, ¬ f <+: path ++ [name]) →
    SameKind ((a.inner path).get? name) ((b.inner path).get? name)

namespace Changed

variable {fields fields' : List (List String)} {a b c : Msg}

theorem refl (fields : List (List String)) (a : Msg) : Changed fields a a :=
  ⟨fun _ _ _ => rfl, fun _ _ _ => .refl _⟩

section Reads

variable (h : Changed fields a b) {path : List String} {name : String}
  (apart : ∀ f ∈ fields, ¬ f <+: path ++ [name])

include h apart

theorem scalar? : (b.inner path).scalar? name = (a.inner path).scalar? name := by
  obtain same | ⟨c, c', hc, hc'⟩ := h.kind path name apart
  · simp only [Msg.scalar?, same]
  · simp only [Msg.scalar?, hc, hc']

theorem elements : (b.inner path).elements name = (a.inner path).elements name := by
  obtain same | ⟨c, c', hc, hc'⟩ := h.kind path name apart
  · simp only [Msg.elements, same]
  · simp only [Msg.elements, hc, hc']

theorem sub?_isSome : ((b.inner path).sub? name).isSome = ((a.inner path).sub? name).isSome := by
  obtain same | ⟨c, c', hc, hc'⟩ := h.kind path name apart
  · simp only [sub?, same]
  · simp only [sub?, hc, hc', Option.isSome_some]

end Reads

/-- Beside the fields that have changed, and not above them, the messages are the same. -/
theorem sub? (h : Changed fields a b) {path : List String} {name : String}
    (apart : ∀ f ∈ fields, ¬ f <+: path ++ [name] ∧ ¬ path ++ [name] <+: f) :
    (b.inner path).sub? name = (a.inner path).sub? name := by
  simp only [Msg.sub?, h.same path name apart]

end Changed

theorem changed_set (a : Msg) (name : String) (c : Option (Content Msg)) :
    Changed [[name]] a (a.set name c) := by
  have other : ∀ path n, ¬ [name] <+: path ++ [n] →
      ((a.set name c).inner path).get? n = (a.inner path).get? n := by
    intro path n apart
    cases path with
    | nil =>
      have hn : n ≠ name := fun he => apart (by rw [he]; exact List.prefix_refl _)
      rw [inner_nil, inner_nil, get?_set, if_neg hn]
    | cons m path =>
      have hm : m ≠ name := fun he => apart (by
        rw [he]
        exact List.prefix_append [name] (path ++ [n]))
      rw [inner_cons, inner_cons, sub?_set_other a hm]
  refine ⟨fun path n apart => ?_, fun path n apart => ?_⟩
  · exact other path n (apart _ List.mem_cons_self).1
  · exact .inl (other path n (apart _ List.mem_cons_self))

/-- A change below a message field that is set. -/
theorem changed_set_sub {a c c' : Msg} {name : String} {steps : List String}
    (held : a.sub? name = some c) (h : Changed [steps] c c') :
    Changed [name :: steps] a (a.set name (some (.sub c'))) := by
  have beside : ∀ path n, n ≠ name →
      ((a.set name (some (.sub c'))).inner (n :: path)) = a.inner (n :: path) := by
    intro path n hn
    rw [inner_cons, inner_cons, sub?_set_other a hn]
  have below : ∀ path, (a.set name (some (.sub c'))).inner (name :: path) = c'.inner path := by
    intro path
    rw [inner_cons, sub?_set_sub, Option.getD_some]
  have old : ∀ path, a.inner (name :: path) = c.inner path := by
    intro path
    rw [inner_cons, held, Option.getD_some]
  refine ⟨fun path n apart => ?_, fun path n apart => ?_⟩
  · obtain ⟨notBelow, notAbove⟩ := apart _ List.mem_cons_self
    cases path with
    | nil =>
      have hn : n ≠ name := fun he => notAbove (by
        rw [he]
        exact List.prefix_append [name] steps)
      rw [inner_nil, inner_nil, get?_set, if_neg hn]
    | cons m path =>
      by_cases hm : m = name
      · subst hm
        rw [below, old]
        apply h.same
        intro f hf
        rw [List.mem_singleton.mp hf]
        constructor
        · exact fun start => notBelow (List.cons_prefix_cons.mpr ⟨rfl, start⟩)
        · exact fun start => notAbove (List.cons_prefix_cons.mpr ⟨rfl, start⟩)
      · rw [beside path m hm]
  · have notBelow := apart _ List.mem_cons_self
    cases path with
    | nil =>
      rw [inner_nil, inner_nil]
      by_cases hn : n = name
      · subst hn
        exact .inr ⟨c, c', get?_of_sub? held, by rw [get?_set, if_pos rfl]⟩
      · exact .inl (by rw [get?_set, if_neg hn])
    | cons m path =>
      by_cases hm : m = name
      · subst hm
        rw [below, old]
        apply h.kind
        intro f hf
        rw [List.mem_singleton.mp hf]
        exact fun start => notBelow (List.cons_prefix_cons.mpr ⟨rfl, start⟩)
      · rw [beside path m hm]
        exact .refl _

/-- A change of one field of a message below some fields, all of them set. -/
theorem changed_modify {f : Msg → Option Msg} {path : List String} {name : String} {a b : Msg}
    (there : (a.at? path).isSome) (hm : a.modify f path = some b)
    (each : ∀ o, f (a.inner path) = some o → Changed [[name]] (a.inner path) o) :
    Changed [path ++ [name]] a b := by
  induction path generalizing a b with
  | nil => exact each b hm
  | cons step path ih =>
    obtain ⟨c', hc', rfl⟩ := Option.map_eq_some_iff.mp hm
    obtain ⟨o, there⟩ := Option.isSome_iff_exists.mp there
    obtain ⟨c, hc, there⟩ := Option.bind_eq_some_iff.mp there
    rw [hc, Option.getD_some] at hc'
    apply changed_set_sub hc
    apply ih (by rw [there, Option.isSome_some]) hc'
    intro o' ho'
    have inner : a.inner (step :: path) = c.inner path := by rw [inner_cons, hc, Option.getD_some]
    rw [← inner] at ho' ⊢
    exact each o' ho'

end Msg

end Proto
