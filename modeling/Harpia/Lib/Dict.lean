import Mathlib.Data.List.Basic
import Mathlib.Data.List.Induction
import Mathlib.Data.List.Nodup

/-- A Python dict: bindings in insertion order, one per key. -/
structure Dict (α β : Type) where
  entries : List (α × β)
  nodup_keys : (entries.map Prod.fst).Nodup
deriving DecidableEq

namespace Dict

variable {α β : Type} [DecidableEq α]

def empty : Dict α β := ⟨[], by simp⟩

def keys (d : Dict α β) : List α := d.entries.map Prod.fst

def values (d : Dict α β) : List β := d.entries.map Prod.snd

def get? (d : Dict α β) (k : α) : Option β := d.entries.lookup k

/-- Assignment to a key already present keeps its position. -/
def setEntries : List (α × β) → α → β → List (α × β)
  | [], k, v => [(k, v)]
  | (k', v') :: rest, k, v =>
    if k' = k then (k, v) :: rest else (k', v') :: setEntries rest k v

theorem mem_keys_setEntries {es : List (α × β)} {k k' : α} {v : β} :
    k' ∈ (setEntries es k v).map Prod.fst ↔ k' = k ∨ k' ∈ es.map Prod.fst := by
  induction es with
  | nil => simp [setEntries]
  | cons e es ih =>
    obtain ⟨a, b⟩ := e
    by_cases h : a = k
    · subst a
      simp [setEntries]
    · simp only [setEntries, if_neg h, List.map_cons, List.mem_cons, ih]
      tauto

theorem nodup_setEntries {es : List (α × β)} (h : (es.map Prod.fst).Nodup) (k : α) (v : β) :
    ((setEntries es k v).map Prod.fst).Nodup := by
  induction es with
  | nil => simp [setEntries]
  | cons e es ih =>
    obtain ⟨a, b⟩ := e
    obtain ⟨absent, rest⟩ := List.nodup_cons.mp h
    by_cases hk : a = k
    · subst a
      simpa [setEntries] using h
    · simp only [setEntries, if_neg hk, List.map_cons]
      refine List.nodup_cons.mpr ⟨?_, ih rest⟩
      intro hm
      rcases mem_keys_setEntries.mp hm with he | hm
      · exact hk he
      · exact absent hm

theorem lookup_setEntries (es : List (α × β)) (k k' : α) (v : β) :
    (setEntries es k v).lookup k' = if k' = k then some v else es.lookup k' := by
  induction es with
  | nil =>
    by_cases h : k' = k
    · simp [setEntries, h]
    · simp [setEntries, List.lookup_cons, h, beq_eq_false_iff_ne.mpr h]
  | cons e es ih =>
    obtain ⟨a, b⟩ := e
    by_cases ha : a = k
    · subst a
      by_cases h : k' = k
      · simp [setEntries, h]
      · simp [setEntries, List.lookup_cons, h, beq_eq_false_iff_ne.mpr h]
    · simp only [setEntries, if_neg ha, List.lookup_cons, ih]
      by_cases h : k' = a
      · subst a
        simp [ha]
      · simp [beq_eq_false_iff_ne.mpr h]

def set (d : Dict α β) (k : α) (v : β) : Dict α β :=
  ⟨setEntries d.entries k v, nodup_setEntries d.nodup_keys k v⟩

def erase (d : Dict α β) (k : α) : Dict α β :=
  ⟨d.entries.filter fun e => e.1 ≠ k, (List.filter_sublist.map _).nodup d.nodup_keys⟩

/-- A dict comprehension: later pairs overwrite earlier ones of the same key. -/
def ofPairs (ps : List (α × β)) : Dict α β := ps.foldl (fun d p => d.set p.1 p.2) empty

@[simp] theorem get?_empty (k : α) : (empty : Dict α β).get? k = none := rfl

theorem get?_set (d : Dict α β) (k k' : α) (v : β) :
    (d.set k v).get? k' = if k' = k then some v else d.get? k' :=
  lookup_setEntries d.entries k k' v

theorem lookup_eq_none_of_not_mem {es : List (α × β)} {k : α} (h : k ∉ es.map Prod.fst) :
    es.lookup k = none := by
  rw [List.lookup_eq_none_iff]
  intro p hp
  rw [bne_iff_ne]
  rintro rfl
  exact h (List.mem_map_of_mem hp)

theorem lookup_eq_some_of_mem {es : List (α × β)} (nodup : (es.map Prod.fst).Nodup) {k : α} {v : β}
    (h : (k, v) ∈ es) : es.lookup k = some v := by
  induction es with
  | nil => simp at h
  | cons e es ih =>
    obtain ⟨a, b⟩ := e
    obtain ⟨absent, rest⟩ := List.nodup_cons.mp nodup
    rcases List.mem_cons.mp h with he | hm
    · obtain ⟨rfl, rfl⟩ := Prod.mk.inj he
      simp
    · have hne : k ≠ a := by
        rintro rfl
        exact absent (List.mem_map.mpr ⟨(k, v), hm, rfl⟩)
      simpa [List.lookup_cons, beq_eq_false_iff_ne.mpr hne] using ih rest hm

theorem mem_of_lookup_eq_some {es : List (α × β)} {k : α} {v : β} (h : es.lookup k = some v) :
    (k, v) ∈ es := by
  obtain ⟨before, after, rfl, _⟩ := List.lookup_eq_some_iff.mp h
  simp

theorem get?_eq_some_iff (d : Dict α β) {k : α} {v : β} :
    d.get? k = some v ↔ (k, v) ∈ d.entries :=
  ⟨mem_of_lookup_eq_some, lookup_eq_some_of_mem d.nodup_keys⟩

theorem get?_erase (d : Dict α β) (k k' : α) :
    (d.erase k).get? k' = if k' = k then none else d.get? k' := by
  apply Option.ext
  intro v
  rw [get?_eq_some_iff]
  by_cases h : k' = k
  · simp [erase, h]
  · simp [erase, h, get?_eq_some_iff]

theorem setEntries_of_lookup {es : List (α × β)} {k : α} {v : β} (h : es.lookup k = some v) :
    setEntries es k v = es := by
  induction es with
  | nil => simp at h
  | cons e es ih =>
    obtain ⟨a, b⟩ := e
    by_cases ha : k = a
    · subst a
      have hb : b = v := by simpa using h
      simp [setEntries, hb]
    · have rest : es.lookup k = some v := by
        simpa [List.lookup_cons, beq_eq_false_iff_ne.mpr ha] using h
      rw [setEntries, if_neg (Ne.symm ha), ih rest]

/-- Assigning a key the value it has changes nothing. -/
theorem set_get? {d : Dict α β} {k : α} {v : β} (h : d.get? k = some v) : d.set k v = d := by
  have same := setEntries_of_lookup h
  cases d
  simp only [set, Dict.mk.injEq]
  exact same

theorem setEntries_of_notMem {es : List (α × β)} {k : α} (v : β) (h : k ∉ es.map Prod.fst) :
    setEntries es k v = es ++ [(k, v)] := by
  induction es with
  | nil => rfl
  | cons e es ih =>
    obtain ⟨a, b⟩ := e
    have other : a ≠ k := fun he => h (by simp [he])
    have rest : k ∉ es.map Prod.fst := fun hm => h (List.mem_cons_of_mem _ hm)
    rw [setEntries, if_neg other, ih rest, List.cons_append]

/-- A new key goes to the end. -/
theorem entries_set_of_notMem {d : Dict α β} {k : α} (v : β) (h : k ∉ d.keys) :
    (d.set k v).entries = d.entries ++ [(k, v)] := setEntries_of_notMem v h

omit [DecidableEq α] in
@[ext] theorem ext_entries {d d' : Dict α β} (h : d.entries = d'.entries) : d = d' := by
  cases d
  cases d'
  simpa using h

theorem ofPairs_append (ps : List (α × β)) (p : α × β) :
    ofPairs (ps ++ [p]) = (ofPairs ps).set p.1 p.2 := by
  simp only [ofPairs, List.foldl_append, List.foldl_cons, List.foldl_nil]

/-- A dict is built again from its bindings in their order. -/
theorem ofPairs_entries (d : Dict α β) : ofPairs d.entries = d := by
  have build : ∀ ps : List (α × β), (ps.map Prod.fst).Nodup → (ofPairs ps).entries = ps := by
    intro ps
    induction ps using List.reverseRecOn with
    | nil => exact fun _ => rfl
    | append_singleton ps p ih =>
      intro nodup
      rw [List.map_append, List.nodup_append] at nodup
      obtain ⟨left, -, apart⟩ := nodup
      have entries := ih left
      have new : p.1 ∉ (ofPairs ps).keys := by
        rw [keys, entries]
        exact fun hm => apart p.1 hm p.1 (by simp) rfl
      rw [ofPairs_append, entries_set_of_notMem _ new, entries]
  exact ext_entries (build d.entries d.nodup_keys)

theorem mem_keys_iff (d : Dict α β) {k : α} : k ∈ d.keys ↔ ∃ v, d.get? k = some v := by
  simp only [keys, List.mem_map, Prod.exists, exists_and_right, exists_eq_right,
    d.get?_eq_some_iff]

theorem mem_values_iff (d : Dict α β) {v : β} : v ∈ d.values ↔ ∃ k, d.get? k = some v := by
  simp only [values, List.mem_map, Prod.exists, exists_eq_right, d.get?_eq_some_iff]

/-- The last pair of a key decides its value. -/
theorem get?_ofPairs (ps : List (α × β)) (k : α) :
    (ofPairs ps).get? k = ps.reverse.lookup k := by
  induction ps using List.reverseRecOn with
  | nil => rfl
  | append_singleton ps p ih =>
    simp only [ofPairs, List.foldl_append, List.foldl_cons, List.foldl_nil,
      List.reverse_append, List.reverse_cons, List.reverse_nil, List.nil_append,
      List.singleton_append] at ih ⊢
    obtain ⟨a, b⟩ := p
    rw [get?_set, ih, List.lookup_cons]
    by_cases h : k = a
    · simp [h]
    · simp [h, beq_eq_false_iff_ne.mpr h]

theorem get?_ofPairs_of_nodup {ps : List (α × β)} (h : (ps.map Prod.fst).Nodup) {k : α} {v : β} :
    (ofPairs ps).get? k = some v ↔ (k, v) ∈ ps := by
  rw [get?_ofPairs]
  constructor
  · intro hl
    exact List.mem_reverse.mp (mem_of_lookup_eq_some hl)
  · intro hm
    apply lookup_eq_some_of_mem
    · rw [List.map_reverse]
      exact List.nodup_reverse.mpr h
    · exact List.mem_reverse.mpr hm

theorem mem_of_get?_ofPairs {ps : List (α × β)} {k : α} {v : β}
    (h : (ofPairs ps).get? k = some v) : (k, v) ∈ ps := by
  rw [get?_ofPairs] at h
  exact List.mem_reverse.mp (mem_of_lookup_eq_some h)

theorem exists_get?_ofPairs {ps : List (α × β)} {k : α} (h : k ∈ ps.map Prod.fst) :
    ∃ v, (ofPairs ps).get? k = some v := by
  rw [get?_ofPairs]
  cases hl : ps.reverse.lookup k with
  | some v => exact ⟨v, rfl⟩
  | none =>
    obtain ⟨p, hp, rfl⟩ := List.mem_map.mp h
    have hne := List.lookup_eq_none_iff.mp hl p (List.mem_reverse.mpr hp)
    simp at hne

end Dict
