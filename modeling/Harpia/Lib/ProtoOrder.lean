import Harpia.Lib.ProtoReads

namespace Proto

/-- From a message to one that a field of it holds. -/
inductive Step
  | field (name : String)
  | element (name : String) (i : Nat)
deriving DecidableEq, Repr

def Step.name : Step → String
  | field name => name
  | element name _ => name

namespace Msg

def child (m : Msg) : Step → Msg
  | .field name => (m.sub? name).getD empty
  | .element name i => (m.elements name)[i]?.getD empty

/-- The message below some steps; the default message where there is none. -/
def under (m : Msg) : List Step → Msg
  | [] => m
  | step :: path => (m.child step).under path

@[simp] theorem under_nil (m : Msg) : m.under [] = m := rfl

theorem under_cons (m : Msg) (step : Step) (path : List Step) :
    m.under (step :: path) = (m.child step).under path := rfl

theorem under_append (m : Msg) (path rest : List Step) :
    m.under (path ++ rest) = (m.under path).under rest := by
  induction path generalizing m with
  | nil => rfl
  | cons step path ih => rw [List.cons_append, under_cons, under_cons, ih]

theorem under_fields (m : Msg) (path : List String) : m.under (path.map .field) = m.inner path := by
  induction path generalizing m with
  | nil => rfl
  | cons name path ih =>
    rw [List.map_cons, under_cons, ih, inner_cons]
    rfl

theorem child_empty (step : Step) : empty.child step = empty := by
  cases step with
  | field name => rfl
  | element name i => rfl

theorem under_empty (path : List Step) : empty.under path = empty := by
  induction path with
  | nil => rfl
  | cons step path ih => rw [under_cons, child_empty, ih]

theorem child_congr {a b : Msg} {step : Step} (h : a.get? step.name = b.get? step.name) :
    a.child step = b.child step := by
  cases step with
  | field name =>
    replace h : a.get? name = b.get? name := h
    simp only [child, sub?, h]
  | element name i =>
    replace h : a.get? name = b.get? name := h
    simp only [child, elements, h]

/-- What the field holds in `a`, it holds in `b`. The messages that it holds are left to their own
fields. -/
structure FieldWithin (a b : Msg) (name : String) : Prop where
  scalar : ∀ x, a.scalar? name = some x → b.scalar? name = some x
  map : ∀ k x, (a.map name).get? k = some x → (b.map name).get? k = some x
  list : a.list name = [] ∨ b.list name = a.list name
  sub : (a.sub? name).isSome → (b.sub? name).isSome
  elements : a.elements name = [] ∨ (b.elements name).length = (a.elements name).length

/-- The field of the message below some steps holds in `b` what it holds in `a`. -/
def KeptAt (a b : Msg) (path : List Step) (name : String) : Prop :=
  FieldWithin (a.under path) (b.under path) name

/-- Everything that is set in `a` is set in `b`, to the same value. -/
def Within (a b : Msg) : Prop := ∀ path name, KeptAt a b path name

namespace FieldWithin

variable {a b c : Msg} {name : String}

theorem refl (a : Msg) (name : String) : FieldWithin a a name :=
  ⟨fun _ h => h, fun _ _ h => h, .inr rfl, fun h => h, .inr rfl⟩

theorem trans (h : FieldWithin a b name) (h' : FieldWithin b c name) : FieldWithin a c name := by
  refine ⟨fun x hx => h'.scalar x (h.scalar x hx), fun k x hx => h'.map k x (h.map k x hx), ?_,
    fun hs => h'.sub (h.sub hs), ?_⟩
  · rcases h.list with none_ | same
    · exact .inl none_
    · rcases h'.list with none_ | same'
      · exact .inl (same ▸ none_)
      · exact .inr (same'.trans same)
  · rcases h.elements with none_ | same
    · exact .inl none_
    · rcases h'.elements with none_ | same'
      · rw [none_, List.length_nil] at same
        exact .inl (List.length_eq_zero_iff.mp same.symm)
      · exact .inr (same'.trans same)

theorem congr {a' b' : Msg} (h : FieldWithin a b name) (ha : a'.get? name = a.get? name)
    (hb : b'.get? name = b.get? name) : FieldWithin a' b' name := by
  constructor
  · simpa only [scalar?, ha, hb] using h.scalar
  · simpa only [Msg.map, ha, hb] using h.map
  · simpa only [Msg.list, ha, hb] using h.list
  · simpa only [sub?, ha, hb] using h.sub
  · simpa only [Msg.elements, ha, hb] using h.elements

/-- A field that holds nothing. -/
theorem of_none (b : Msg) (h : a.get? name = none) : FieldWithin a b name := by
  constructor
  · simp [scalar?, h]
  · simp [Msg.map, h]
  · simp [Msg.list, h]
  · simp [sub?, h]
  · simp [Msg.elements, h]

end FieldWithin

theorem Within.refl (a : Msg) : Within a a := fun path name => .refl (a.under path) name

theorem Within.trans {a b c : Msg} (h : Within a b) (h' : Within b c) : Within a c :=
  fun path name => (h path name).trans (h' path name)

theorem KeptAt.mono {a b c : Msg} {path : List Step} {name : String} (h : KeptAt a b path name)
    (h' : Within b c) : KeptAt a c path name := FieldWithin.trans h (h' path name)

theorem within_empty (b : Msg) : Within empty b := fun path name => by
  refine .of_none _ ?_
  rw [under_empty, get?_empty]

theorem Within.field {a b : Msg} (h : Within a b) (name : String) : FieldWithin a b name := h [] name

theorem Within.child {a b : Msg} (h : Within a b) (step : Step) : Within (a.child step) (b.child step) :=
  fun path name => h (step :: path) name

theorem Within.under {a b : Msg} (h : Within a b) (path : List Step) :
    Within (a.under path) (b.under path) := fun rest name => by
  have there := h (path ++ rest) name
  rwa [KeptAt, under_append, under_append] at there

theorem Within.inner {a b : Msg} (h : Within a b) (path : List String) :
    Within (a.inner path) (b.inner path) := by
  have there := h.under (path.map .field)
  rwa [under_fields, under_fields] at there

theorem within_of_children {a b : Msg} (fields : ∀ name, FieldWithin a b name)
    (children : ∀ step, Within (a.child step) (b.child step)) : Within a b := fun path name =>
  match path with
  | [] => fields name
  | step :: path => children step path name

/-- A message in which one field has been set, from below. -/
theorem within_set {a b : Msg} {name : String} {c : Option (Content Msg)} (h : Within a b)
    (field : FieldWithin (a.set name c) b name)
    (children : ∀ step : Step, step.name = name → Within ((a.set name c).child step) (b.child step)) :
    Within (a.set name c) b := by
  have other : ∀ n, n ≠ name → (a.set name c).get? n = a.get? n := fun n hn => by
    rw [get?_set, if_neg hn]
  refine within_of_children (fun n => ?_) fun step => ?_
  · by_cases hn : n = name
    · exact hn ▸ field
    · exact (h.field n).congr (other n hn) rfl
  · by_cases hn : step.name = name
    · exact children step hn
    · rw [child_congr (other _ hn)]
      exact h.child step

/-- A message in which one field has been set, from above. -/
theorem within_set_self {a : Msg} {name : String} {c : Option (Content Msg)}
    (field : FieldWithin a (a.set name c) name)
    (children : ∀ step : Step, step.name = name → Within (a.child step) ((a.set name c).child step)) :
    Within a (a.set name c) := by
  have other : ∀ n, n ≠ name → (a.set name c).get? n = a.get? n := fun n hn => by
    rw [get?_set, if_neg hn]
  refine within_of_children (fun n => ?_) fun step => ?_
  · by_cases hn : n = name
    · exact hn ▸ field
    · exact (FieldWithin.refl a n).congr rfl (other n hn)
  · by_cases hn : step.name = name
    · exact children step hn
    · rw [child_congr (other _ hn)]
      exact .refl _

/-- A list stands there. -/
def Listed (m : Msg) (path : List Step) (name : String) : Prop :=
  (m.under path).list name ≠ [] ∨ (m.under path).elements name ≠ []

/-- In `b`, lists stand where they do in `a`, and below some fields. -/
def NewLists (fields : List (List String)) (a b : Msg) : Prop :=
  ∀ path name, b.Listed path name →
    a.Listed path name ∨ ∃ steps ∈ fields, steps <+: path.map Step.name ++ [name]

/-- No list stands below the message. -/
def Listless (m : Msg) : Prop := ∀ path name, ¬ m.Listed path name

theorem listless_empty : Listless empty := fun path name listed => by
  rw [Listed, under_empty] at listed
  exact listed.elim (fun h => h rfl) fun h => h rfl

theorem NewLists.refl (fields : List (List String)) (a : Msg) : NewLists fields a a :=
  fun _ _ h => .inl h

theorem NewLists.trans {fields fields' : List (List String)} {a b c : Msg}
    (h : NewLists fields a b) (h' : NewLists fields' b c) : NewLists (fields ++ fields') a c := by
  intro path name listed
  rcases h' path name listed with listed | ⟨steps, hs, start⟩
  · rcases h path name listed with listed | ⟨steps, hs, start⟩
    · exact .inl listed
    · exact .inr ⟨steps, List.mem_append_left _ hs, start⟩
  · exact .inr ⟨steps, List.mem_append_right _ hs, start⟩

theorem newLists_set {a : Msg} (name : String) (c : Option (Content Msg)) :
    NewLists [[name]] a (a.set name c) := by
  intro path n listed
  have other : ∀ n, n ≠ name → (a.set name c).get? n = a.get? n := fun n hn => by
    rw [get?_set, if_neg hn]
  cases path with
  | nil =>
    by_cases hn : n = name
    · exact .inr ⟨[name], List.mem_cons_self, hn ▸ List.prefix_refl _⟩
    · refine .inl ?_
      simpa only [Listed, under_nil, Msg.list, Msg.elements, other n hn] using listed
  | cons step path =>
    by_cases hn : step.name = name
    · refine .inr ⟨[name], List.mem_cons_self, ?_⟩
      rw [List.map_cons, List.cons_append, hn]
      exact List.prefix_append [name] _
    · refine .inl ?_
      rwa [Listed, under_cons, child_congr (other _ hn)] at listed

/-- A field that holds neither a list nor a message brings no list. -/
theorem newLists_set_plain {a : Msg} {name : String} {c : Option (Content Msg)}
    (list : (a.set name c).list name = []) (elements : (a.set name c).elements name = [])
    (sub : (a.set name c).sub? name = none) : NewLists [] a (a.set name c) := by
  have other : ∀ n, n ≠ name → (a.set name c).get? n = a.get? n := fun n hn => by
    rw [get?_set, if_neg hn]
  have none_ : ∀ step : Step, step.name = name → (a.set name c).child step = empty := by
    intro step hn
    subst hn
    cases step with
    | field n => exact (congrArg (Option.getD · empty) sub).trans rfl
    | element n i =>
      replace elements : (a.set n c).elements n = [] := elements
      show ((a.set n c).elements n)[i]?.getD empty = empty
      rw [elements, List.getElem?_nil, Option.getD_none]
  intro path n listed
  refine .inl ?_
  cases path with
  | nil =>
    by_cases hn : n = name
    · subst hn
      exact listed.elim (fun h => absurd list h) fun h => absurd elements h
    · simpa only [Listed, under_nil, Msg.list, Msg.elements, other n hn] using listed
  | cons step path =>
    by_cases hn : step.name = name
    · rw [Listed, under_cons, none_ step hn] at listed
      exact absurd listed (listless_empty path n)
    · rwa [Listed, under_cons, child_congr (other _ hn)] at listed

/-- From `a` to `b`, more of `msg` has been filled in; lists only below some fields. -/
structure Fills (msg : Msg) (fields : List (List String)) (a b : Msg) : Prop where
  grows : Within a b
  within : Within b msg
  lists : NewLists fields a b

namespace Fills

variable {msg a b c : Msg} {fields fields' : List (List String)}

theorem refl (fields : List (List String)) (h : Within a msg) : Fills msg fields a a :=
  ⟨.refl a, h, .refl fields a⟩

theorem trans (h : Fills msg fields a b) (h' : Fills msg fields' b c) :
    Fills msg (fields ++ fields') a c :=
  ⟨h.grows.trans h'.grows, h'.within, h.lists.trans h'.lists⟩

end Fills

/-- No list stands at or below a field. -/
def FreshAt (m : Msg) (steps : List String) : Prop :=
  ∀ path name, steps <+: path.map Step.name ++ [name] → ¬ m.Listed path name

theorem Listless.freshAt {m : Msg} (h : Listless m) (steps : List String) : m.FreshAt steps :=
  fun path name _ => h path name

/-- Lists that come up beside a field do not come up below it. -/
theorem FreshAt.fills {a b : Msg} {steps : List String} {fields : List (List String)}
    (h : a.FreshAt steps) (lists : NewLists fields a b)
    (apart : ∀ other ∈ fields, ¬ steps <+: other ∧ ¬ other <+: steps) : b.FreshAt steps := by
  intro path name start listed
  rcases lists path name listed with listed | ⟨other, ho, start'⟩
  · exact h path name start listed
  · rcases List.prefix_or_prefix_of_prefix start start' with before | before
    · exact (apart other ho).1 before
    · exact (apart other ho).2 before

theorem map_name_fields (steps : List String) : (steps.map Step.field).map Step.name = steps := by
  rw [List.map_map]
  exact List.map_id steps

theorem FreshAt.listless {m : Msg} {steps : List String} (h : m.FreshAt steps) :
    Listless (m.inner steps) := by
  intro path name listed
  refine h (steps.map .field ++ path) name ?_ ?_
  · rw [List.map_append, map_name_fields, List.append_assoc]
    exact List.prefix_append _ _
  · rwa [Listed, under_append, under_fields]

theorem FreshAt.field {m : Msg} {path : List String} {name : String}
    (h : m.FreshAt (path ++ [name])) :
    (m.inner path).list name = [] ∧ (m.inner path).elements name = [] := by
  have start : path ++ [name] <+: (path.map Step.field).map Step.name ++ [name] :=
    ⟨[], by rw [map_name_fields, List.append_nil]⟩
  have none_ := h (path.map .field) name start
  rw [Listed, under_fields, not_or, not_not, not_not] at none_
  exact none_

theorem FieldWithin.of_sub {a b : Msg} {name : String} {o : Msg} (h : a.sub? name = some o)
    (there : (b.sub? name).isSome) : FieldWithin a b name := by
  have held := get?_of_sub? h
  constructor
  · simp [scalar?, held]
  · simp [Msg.map, held]
  · simp [Msg.list, held]
  · exact fun _ => there
  · simp [Msg.elements, held]

theorem at?_append (m : Msg) (path rest : List String) :
    m.at? (path ++ rest) = (m.at? path).bind fun o => o.at? rest := by
  induction path generalizing m with
  | nil => rfl
  | cons name path ih =>
    rw [List.cons_append, at?, at?, Option.bind_assoc]
    exact congrArg _ (funext ih)

theorem at?_snoc {m c : Msg} {path : List String} {name : String}
    (h : (m.inner path).sub? name = some c) : m.at? (path ++ [name]) = some c := by
  rw [at?_append, at?_of_sub? h, Option.bind_some, at?, h, Option.bind_some, at?]

section Modify

variable {f : Msg → Option Msg} {path : List String} {a b a' : Msg}

/-- What a change below some fields leaves there. -/
theorem modify_at (h : a.modify f path = some a') :
    ∃ o, f (a.inner path) = some o ∧ a'.at? path = some o := by
  induction path generalizing a a' with
  | nil => exact ⟨a', h, rfl⟩
  | cons name path ih =>
    obtain ⟨c, hc, rfl⟩ := Option.map_eq_some_iff.mp h
    obtain ⟨o, ho, there⟩ := ih hc
    refine ⟨o, by rwa [inner_cons], ?_⟩
    rw [at?, sub?_set_sub, Option.bind_some, there]

theorem modify_exists {o : Msg} (h : f (a.inner path) = some o) : ∃ a', a.modify f path = some a' := by
  induction path generalizing a with
  | nil => exact ⟨o, h⟩
  | cons name path ih =>
    rw [inner_cons] at h
    obtain ⟨c, hc⟩ := ih h
    exact ⟨_, Option.map_eq_some_iff.mpr ⟨c, hc, rfl⟩⟩

/-- A field of `b` holds a message: in a part of `b`, that field holds nothing else. -/
theorem Within.of_sub {name : String} {o : Msg} (h : Within a b) (hb : b.sub? name = some o) :
    (∀ x, a.scalar? name ≠ some x) ∧ (∀ k x, (a.map name).get? k ≠ some x) ∧ a.list name = [] ∧
      a.elements name = [] := by
  have held := get?_of_sub? hb
  have field := h.field name
  refine ⟨fun x hx => ?_, fun k x hx => ?_, ?_, ?_⟩
  · have there := field.scalar x hx
    simp [scalar?, held] at there
  · have there := field.map k x hx
    simp [Msg.map, held] at there
  · rcases field.list with none_ | same
    · exact none_
    · rw [← same]
      simp [Msg.list, held]
  · rcases field.elements with none_ | same
    · exact none_
    · refine List.length_eq_zero_iff.mp ?_
      rw [← same]
      simp [Msg.elements, held]

/-- A message field is filled in where its message is. -/
theorem fills_set_sub {name : String} {o c : Msg} {fields : List (List String)} (h : Within a b)
    (hb : b.sub? name = some o) (fills : Fills o fields (a.child (.field name)) c) :
    Fills b (fields.map (name :: ·)) a (a.set name (some (.sub c))) := by
  obtain ⟨noScalar, noMap, noList, noElements⟩ := h.of_sub hb
  have set_ : (a.set name (some (.sub c))).get? name = some (.sub c) := by rw [get?_set, if_pos rfl]
  have childSub : (a.set name (some (.sub c))).child (.field name) = c := by simp [child, sub?, set_]
  have childElement : ∀ i, (a.set name (some (.sub c))).child (.element name i) = empty := by
    intro i
    simp [child, elements, set_]
  have above : b.child (.field name) = o := by simp [child, hb]
  refine ⟨within_set_self ?_ fun step hn => ?_, within_set h ?_ fun step hn => ?_, ?_⟩
  · exact ⟨fun x hx => absurd hx (noScalar x), fun k x hx => absurd hx (noMap k x), .inl noList,
      fun _ => by simp [sub?, set_], .inl noElements⟩
  · cases step with
    | field n =>
      obtain rfl : n = name := hn
      rw [childSub]
      exact fills.grows
    | element n i =>
      obtain rfl : n = name := hn
      have none_ : a.child (.element n i) = empty := by simp [child, noElements]
      rw [none_]
      exact within_empty _
  · constructor
    · simp [scalar?, set_]
    · simp [Msg.map, set_]
    · simp [Msg.list, set_]
    · intro _
      rw [hb, Option.isSome_some]
    · simp [Msg.elements, set_]
  · cases step with
    | field n =>
      obtain rfl : n = name := hn
      rw [childSub, above]
      exact fills.within
    | element n i =>
      obtain rfl : n = name := hn
      rw [childElement]
      exact within_empty _
  · intro path n listed
    have other : ∀ n, n ≠ name → (a.set name (some (.sub c))).get? n = a.get? n := fun n hn => by
      rw [get?_set, if_neg hn]
    cases path with
    | nil =>
      by_cases hn : n = name
      · subst hn
        simp [Listed, Msg.list, Msg.elements, set_] at listed
      · refine .inl ?_
        simpa only [Listed, under_nil, Msg.list, Msg.elements, other n hn] using listed
    | cons step path =>
      by_cases hn : step.name = name
      · cases step with
        | field n' =>
          obtain rfl : n' = name := hn
          rw [Listed, under_cons, childSub] at listed
          rcases fills.lists path n listed with there | ⟨steps, hs, start⟩
          · exact .inl there
          · refine .inr ⟨n' :: steps, List.mem_map_of_mem hs, ?_⟩
            exact List.cons_prefix_cons.mpr ⟨rfl, start⟩
        | element n' i =>
          obtain rfl : n' = name := hn
          rw [Listed, under_cons, childElement] at listed
          exact absurd listed (listless_empty path n)
      · refine .inl ?_
        rwa [Listed, under_cons, child_congr (other _ hn)] at listed

/-- What is filled in below some fields is filled in. -/
theorem fills_modify {fields : List (List String)} (h : Within a b) (there : (b.at? path).isSome)
    (hm : a.modify f path = some a')
    (fills : ∀ o, f (a.inner path) = some o → Fills (b.inner path) fields (a.inner path) o) :
    Fills b (fields.map (path ++ ·)) a a' := by
  induction path generalizing a b a' with
  | nil =>
    have same : fields.map ([] ++ ·) = fields := by simp
    rw [same]
    exact fills a' hm
  | cons name path ih =>
    obtain ⟨c, hc, rfl⟩ := Option.map_eq_some_iff.mp hm
    obtain ⟨o, there⟩ := Option.isSome_iff_exists.mp there
    obtain ⟨d, hd, there⟩ := Option.bind_eq_some_iff.mp there
    have inner : Within ((a.sub? name).getD empty) d := by
      have deeper := h.child (.field name)
      simpa only [child, hd, Option.getD_some] using deeper
    have reads : Fills d (fields.map (path ++ ·)) (a.child (.field name)) c := by
      refine ih inner (by rw [there, Option.isSome_some]) hc fun o' ho' => ?_
      have up := fills o' (by rwa [inner_cons])
      rwa [inner_cons, inner_cons, hd, Option.getD_some] at up
    have shifted : fields.map ((name :: path) ++ ·) = (fields.map (path ++ ·)).map (name :: ·) := by
      rw [List.map_map]
      rfl
    rw [shifted]
    exact fills_set_sub h hd reads

/-- A change of one field of the message below some fields. -/
theorem fills_at {name : String} {o : Msg} (h : Within a b) (there : (b.at? path).isSome)
    (done : f (a.inner path) = some o) (fills : Fills (b.inner path) [[name]] (a.inner path) o) :
    ∃ a', a.modify f path = some a' ∧ Fills b [path ++ [name]] a a' ∧ a'.inner path = o := by
  obtain ⟨a', hm⟩ := modify_exists done
  obtain ⟨o', ho, at_⟩ := modify_at hm
  cases done.symm.trans ho
  refine ⟨a', hm, ?_, by rw [inner, at_, Option.getD_some]⟩
  have changed : Fills b ([[name]].map (path ++ ·)) a a' := by
    apply fills_modify h there hm
    intro o' ho'
    cases done.symm.trans ho'
    exact fills
  exact changed

end Modify

section Set

variable {a b : Msg} {name : String}

/-- A field may be set to what it holds in `b`. -/
theorem fills_copy (h : Within a b) : Fills b [[name]] a (a.set name (b.get? name)) ∧
    FieldWithin b (a.set name (b.get? name)) name ∧
    ∀ step : Step, step.name = name → (a.set name (b.get? name)).child step = b.child step := by
  have same : (a.set name (b.get? name)).get? name = b.get? name := by rw [get?_set, if_pos rfl]
  have children : ∀ step : Step, step.name = name →
      (a.set name (b.get? name)).child step = b.child step := fun step hn => by
    refine child_congr ?_
    rw [hn, same]
  refine ⟨⟨within_set_self ?_ fun step hn => ?_, within_set h ?_ fun step hn => ?_,
    newLists_set name _⟩, ?_, children⟩
  · exact (h.field name).congr rfl same
  · rw [children step hn]
    exact h.child step
  · exact (FieldWithin.refl b name).congr same rfl
  · rw [children step hn]
    exact .refl _
  · exact (FieldWithin.refl b name).congr rfl same

/-- Entries of a map are filled in. -/
theorem fills_set_map {entries d : Dict Scalar Scalar} (h : Within a b)
    (held : b.get? name = some (.map entries))
    (old : ∀ k x, (a.map name).get? k = some x → d.get? k = some x)
    (new : ∀ k x, d.get? k = some x → entries.get? k = some x) :
    Fills b [[name]] a (a.set name (some (.map d))) ∧
      ((∀ k x, entries.get? k = some x → d.get? k = some x) →
        FieldWithin b (a.set name (some (.map d))) name) := by
  have set_ : (a.set name (some (.map d))).get? name = some (.map d) := by
    rw [get?_set, if_pos rfl]
  have now : (a.set name (some (.map d))).map name = d := by simp [Msg.map, set_]
  have there : b.map name = entries := by simp [Msg.map, held]
  have field := h.field name
  have noScalar : ∀ x, a.scalar? name ≠ some x := fun x hx => by
    have read := field.scalar x hx
    simp [scalar?, held] at read
  have noList : a.list name = [] := by
    rcases field.list with none_ | same
    · exact none_
    · rw [← same]
      simp [Msg.list, held]
  have noSub : a.sub? name = none := by
    cases hs : a.sub? name with
    | none => rfl
    | some o =>
      have read := field.sub (by rw [hs, Option.isSome_some])
      simp [sub?, held] at read
  have noElements : a.elements name = [] := by
    rcases field.elements with none_ | same
    · exact none_
    · refine List.length_eq_zero_iff.mp ?_
      rw [← same]
      simp [Msg.elements, held]
  have empty_ : ∀ step : Step, step.name = name → a.child step = empty := by
    intro step hn
    cases step with
    | field n =>
      obtain rfl : n = name := hn
      simp [child, noSub]
    | element n i =>
      obtain rfl : n = name := hn
      simp [child, noElements]
  have empty' : ∀ step : Step, step.name = name →
      (a.set name (some (.map d))).child step = empty := by
    intro step hn
    cases step with
    | field n =>
      obtain rfl : n = name := hn
      simp [child, sub?, set_]
    | element n i =>
      obtain rfl : n = name := hn
      simp [child, elements, set_]
  refine ⟨⟨within_set_self ?_ fun step hn => ?_, within_set h ?_ fun step hn => ?_,
    newLists_set name _⟩, fun full => ?_⟩
  · exact ⟨fun x hx => absurd hx (noScalar x), fun k x hx => by rw [now]; exact old k x hx,
      .inl noList, fun hs => by simp [noSub] at hs, .inl noElements⟩
  · rw [empty_ step hn]
    exact within_empty _
  · refine ⟨?_, fun k x hx => ?_, ?_, ?_, ?_⟩
    · simp [scalar?, set_]
    · rw [now] at hx
      rw [there]
      exact new k x hx
    · simp [Msg.list, set_]
    · simp [sub?, set_]
    · simp [Msg.elements, set_]
  · rw [empty' step hn]
    exact within_empty _
  · refine ⟨?_, fun k x hx => ?_, ?_, ?_, ?_⟩
    · simp [scalar?, held]
    · rw [there] at hx
      rw [now]
      exact full k x hx
    · simp [Msg.list, held]
    · simp [sub?, held]
    · simp [Msg.elements, held]

/-- The elements of a repeated message field are filled in one by one. -/
theorem fills_set_elements {ms es : List Msg} (h : Within a b)
    (held : b.get? name = some (.elements ms)) (none_ : a.elements name = [])
    (all : List.Forall₂ (fun m e => Within e m) ms es) :
    Fills b [[name]] a (a.set name (some (.elements es))) ∧
      FieldWithin b (a.set name (some (.elements es))) name := by
  have set_ : (a.set name (some (.elements es))).get? name = some (.elements es) := by
    rw [get?_set, if_pos rfl]
  have elements_ : b.elements name = ms := by simp [elements, held]
  have new_ : (a.set name (some (.elements es))).elements name = es := by simp [elements, set_]
  have field := h.field name
  have bare : (∀ x, a.scalar? name ≠ some x) ∧ (∀ k x, (a.map name).get? k ≠ some x) ∧
      a.list name = [] ∧ a.sub? name = none := by
    refine ⟨fun x hx => ?_, fun k x hx => ?_, ?_, ?_⟩
    · have there := field.scalar x hx
      simp [scalar?, held] at there
    · have there := field.map k x hx
      simp [Msg.map, held] at there
    · rcases field.list with none_ | same
      · exact none_
      · rw [← same]
        simp [Msg.list, held]
    · cases hs : a.sub? name with
      | none => rfl
      | some o =>
        have there := field.sub (by rw [hs, Option.isSome_some])
        simp [sub?, held] at there
  obtain ⟨noScalar, noMap, noList, noSub⟩ := bare
  have length : es.length = ms.length := all.length_eq.symm
  refine ⟨⟨within_set_self ?_ fun step hn => ?_, within_set h ?_ fun step hn => ?_,
    newLists_set name _⟩, ?_⟩
  · exact ⟨fun x hx => absurd hx (noScalar x), fun k x hx => absurd hx (noMap k x), .inl noList,
      fun hs => by simp [noSub] at hs, .inl none_⟩
  · have empty_ : a.child step = empty := by
      cases step with
      | field n =>
        obtain rfl : n = name := hn
        simp [child, noSub]
      | element n i =>
        obtain rfl : n = name := hn
        simp [child, none_]
    rw [empty_]
    exact within_empty _
  · refine ⟨?_, ?_, ?_, ?_, ?_⟩
    · simp [scalar?, set_]
    · simp [Msg.map, set_]
    · simp [Msg.list, set_]
    · simp [sub?, set_]
    · rw [new_, elements_]
      exact .inr length.symm
  · cases step with
    | field n =>
      obtain rfl : n = name := hn
      have empty_ : (a.set n (some (.elements es))).child (.field n) = empty := by
        simp [child, sub?, set_]
      rw [empty_]
      exact within_empty _
    | element n i =>
      obtain rfl : n = name := hn
      have at_ : (a.set n (some (.elements es))).child (.element n i) = es[i]?.getD empty := by
        simp [child, new_]
      have above : b.child (.element n i) = ms[i]?.getD empty := by simp [child, elements_]
      rw [at_, above]
      by_cases hi : i < ms.length
      · have hi' : i < es.length := by omega
        rw [List.getElem?_eq_getElem hi, List.getElem?_eq_getElem hi']
        exact all.get hi hi'
      · rw [List.getElem?_eq_none (by omega)]
        exact within_empty _
  · refine ⟨?_, ?_, ?_, ?_, ?_⟩
    · simp [scalar?, held]
    · simp [Msg.map, held]
    · simp [Msg.list, held]
    · simp [sub?, held]
    · rw [new_, elements_]
      exact .inr length

end Set

end Msg

end Proto
