import Harpia.FieldMapFreeze

namespace Harpia

open Text

/-- A schema version of one message, as its declared fields. A name is the text of a token, which
stands on one line. -/
structure Version where
  user : List Variable
  names_nodup : (user.map Variable.name).Nodup
  names_oneLine : ∀ var ∈ user, OneLine var.name
  names_allowed : ∀ var ∈ user, isReservedHiddenName var.name = false

def Version.vars (v : Version) : List Variable := withHidden v.user

theorem Version.oneLine_name {v : Version} {var : Variable} (h : var ∈ v.vars) : OneLine var.name := by
  simp only [vars, withHidden, List.cons_append, List.mem_cons, List.mem_append,
    List.not_mem_nil, or_false] at h
  rcases h with rfl | h | rfl | rfl | rfl
  · simp [OneLine, harpiaId]
  · exact v.names_oneLine var h
  · simp [OneLine, harpiaStatus]
  · simp [OneLine, harpiaError]
  · simp [OneLine, harpiaOriginator]

section History

variable (W : WordClass) (file : String)

/-- One generation: a failed `freeze` leaves the sidecar as it was. -/
def generation (sidecar : Option (List Char)) (vars : List Variable) : Option (List Char) :=
  match freeze W file sidecar vars with
  | .ok _ content => some content
  | _ => sidecar

/-- The sidecar after a history of generations, starting from an absent one. -/
def sidecarAfter (history : List Version) : Option (List Char) :=
  history.foldl (fun sidecar v => generation W file sidecar v.vars) none

@[simp] theorem sidecarAfter_concat (history : List Version) (v : Version) :
    sidecarAfter W file (history ++ [v]) = generation W file (sidecarAfter W file history) v.vars := by
  simp [sidecarAfter]

/-- What the generation after `history` finds in the sidecar; nothing where reading it raises. -/
def registered (history : List Version) : FieldMap :=
  (load W (sidecarAfter W file history)).getD FieldMap.empty

/-- The sidecar line of every field is read back. -/
def Version.Readable (v : Version) : Prop := ∀ var ∈ v.vars, ReadableKey W (identity var.name)

instance (v : Version) : Decidable (v.Readable W) :=
  inferInstanceAs (Decidable (∀ var ∈ v.vars, _))

end History

/-- The sidecar invariant: numbers are distinct, and none is retired. -/
structure FieldMap.Good (m : FieldMap) : Prop where
  injective : ∀ {k k' num}, m.numbers.get? k = some num → m.numbers.get? k' = some num → k = k'
  live : ∀ {k num}, m.numbers.get? k = some num → num ∉ m.reserved

theorem FieldMap.empty_good : FieldMap.empty.Good where
  injective h := by simp [FieldMap.empty] at h
  live h := by simp [FieldMap.empty] at h

theorem mem_nextFieldMap {m : FieldMap} {vars : List Variable} {key : String} {num : Nat}
    (h : (nextFieldMap m vars).numbers.get? key = some num) :
    ∃ var, (var, num) ∈ vars.zip (resolvedNumbers m vars) ∧ identity var.name = key :=
  List.mem_zip_map_left.mp (Dict.mem_of_get?_ofPairs h)

section Loads

variable {W : WordClass} {file : String} {before after : List Version} {v : Version}

theorem key_nextFieldMap {m : FieldMap} {key : String}
    (h : key ∈ (nextFieldMap m v.vars).numbers.keys) : ∃ var ∈ v.vars, identity var.name = key := by
  obtain ⟨num, hn⟩ := (Dict.mem_keys_iff _).mp h
  obtain ⟨var, hv, rfl⟩ := mem_nextFieldMap hn
  exact ⟨var, (List.of_mem_zip hv).1, rfl⟩

theorem oneLine_nextFieldMap (m : FieldMap) (v : Version) :
    ∀ key ∈ (nextFieldMap m v.vars).numbers.keys, OneLine key := by
  intro key hk
  obtain ⟨var, hv, rfl⟩ := key_nextFieldMap hk
  exact oneLine_identity (v.oneLine_name hv)

/-- The invariant outlives the sidecar: two keys that are read alike have been one. -/
theorem FieldMap.Good.load_save {m m' : FieldMap} (good : m.Good)
    (lines : ∀ key ∈ m.numbers.keys, OneLine key) (h : load W (some (save m)) = some m') : m'.Good := by
  obtain ⟨numbers, reserved, _⟩ := load_save_reads lines h
  constructor
  · intro k k' num hk hk'
    obtain ⟨key, here, read⟩ := numbers k num hk
    obtain ⟨key', here', read'⟩ := numbers k' num hk'
    obtain rfl := good.injective here here'
    exact Option.some.inj (read.symm.trans read')
  · intro k num hk retired
    obtain ⟨key, here, read⟩ := numbers k num hk
    rcases reserved num retired with old | ⟨key', here', unread⟩
    · exact good.live here old
    · obtain rfl := good.injective here here'
      rw [read] at unread
      cases unread

theorem registered_of_load {m : FieldMap} (h : load W (sidecarAfter W file before) = some m) :
    registered W file before = m := by
  rw [registered, h, Option.getD_some]

theorem sidecarAfter_ok {indices : List Nat} {content : List Char}
    (hf : freeze W file (sidecarAfter W file before) v.vars = .ok indices content) :
    sidecarAfter W file (before ++ [v]) = some content := by
  rw [sidecarAfter_concat, generation, hf]

theorem sidecarAfter_failed
    (hf : ∀ indices content, freeze W file (sidecarAfter W file before) v.vars ≠ .ok indices content) :
    sidecarAfter W file (before ++ [v]) = sidecarAfter W file before := by
  rw [sidecarAfter_concat, generation]
  cases h : freeze W file (sidecarAfter W file before) v.vars with
  | raised => rfl
  | error err => rfl
  | ok indices content => exact absurd h (hf indices content)

theorem freeze_ok_registered {indices : List Nat} {content : List Char}
    (hf : freeze W file (sidecarAfter W file before) v.vars = .ok indices content) :
    indices = resolvedNumbers (registered W file before) v.vars ∧
      content = save (nextFieldMap (registered W file before) v.vars) ∧
      ∀ num ∈ indices, num ∉ (registered W file before).reserved := by
  obtain ⟨m, hm⟩ := exists_load_of_freeze hf
  rw [registered_of_load hm]
  exact (freeze_eq_ok_iff hm).mp hf

/-- A generation of readable names that succeeds hands on `nextFieldMap`, read back from the text. -/
theorem registered_concat_ok (readable : v.Readable W) {indices : List Nat} {content : List Char}
    (hf : freeze W file (sidecarAfter W file before) v.vars = .ok indices content) :
    load W (some content) = some (registered W file (before ++ [v])) ∧
      (registered W file (before ++ [v])).reserved =
        (nextFieldMap (registered W file before) v.vars).reserved ∧
      ∀ k, (registered W file (before ++ [v])).numbers.get? k =
        (nextFieldMap (registered W file before) v.vars).numbers.get? k := by
  obtain ⟨_, rfl, _⟩ := freeze_ok_registered hf
  have keys : ∀ key ∈ (nextFieldMap (registered W file before) v.vars).numbers.keys,
      ReadableKey W key := by
    intro key hk
    obtain ⟨var, hv, rfl⟩ := key_nextFieldMap hk
    exact readable var hv
  obtain ⟨m', hm', reserved, numbers⟩ := load_save keys (oneLine_nextFieldMap _ v)
  have next : registered W file (before ++ [v]) = m' :=
    registered_of_load (by rw [sidecarAfter_ok hf, hm'])
  rw [next]
  exact ⟨hm', reserved, numbers⟩

/-- A sidecar that can be read could be read before every generation. -/
theorem load_of_extends (hp : before <+: after)
    (h : (load W (sidecarAfter W file after)).isSome) : (load W (sidecarAfter W file before)).isSome := by
  obtain ⟨rest, rfl⟩ := hp
  induction rest using List.reverseRecOn with
  | nil => simpa using h
  | append_singleton rest v ih =>
    apply ih
    by_contra raises
    rw [Bool.not_eq_true, Option.isSome_eq_false_iff, Option.isNone_iff_eq_none] at raises
    have stuck : sidecarAfter W file (before ++ rest ++ [v]) = sidecarAfter W file (before ++ rest) := by
      apply sidecarAfter_failed
      intro indices content
      rw [freeze_raised raises]
      exact Frozen.noConfusion
    rw [← List.append_assoc, stuck, raises] at h
    cases h

/-- A history of readable names leaves a sidecar that can be read. -/
theorem load_of_readable {history : List Version} (readable : ∀ v ∈ history, v.Readable W) :
    (load W (sidecarAfter W file history)).isSome := by
  induction history using List.reverseRecOn with
  | nil => rfl
  | append_singleton history v ih =>
    have earlier := ih fun w hw => readable w (List.mem_append_left _ hw)
    by_cases hf : ∃ indices content,
        freeze W file (sidecarAfter W file history) v.vars = .ok indices content
    · obtain ⟨indices, content, hf⟩ := hf
      rw [sidecarAfter_ok hf, (registered_concat_ok (readable v (by simp)) hf).1, Option.isSome_some]
    · rw [sidecarAfter_failed fun indices content he => hf ⟨indices, content, he⟩]
      exact earlier

end Loads

/-- Under the invariant, fields get distinct numbers exactly when they claim distinct entries. -/
theorem resolvedNumbers_nodup_iff {m : FieldMap} (good : m.Good) (vars : List Variable) :
    (resolvedNumbers m vars).Nodup ↔ NoSharedClaim m vars := by
  have same : (vars.map (resolvedNumber m.numbers)).filterMap id =
      (vars.filterMap (claimedKey m.numbers)).filterMap m.numbers.get? := by
    rw [List.filterMap_map, List.filterMap_filterMap]
    rfl
  constructor
  · intro h
    have hsub : ((vars.map (resolvedNumber m.numbers)).filterMap id).Sublist (resolvedNumbers m vars) :=
      filterMap_sublist_assignFresh _
    have hn := h.sublist hsub
    rw [same] at hn
    have live : ∀ key ∈ vars.filterMap (claimedKey m.numbers), ∃ num, m.numbers.get? key = some num := by
      intro key hk
      obtain ⟨var, _, hc⟩ := List.mem_filterMap.mp hk
      exact claimedKey_live hc
    unfold NoSharedClaim
    generalize vars.filterMap (claimedKey m.numbers) = keys at hn live
    induction keys with
    | nil => exact List.nodup_nil
    | cons key keys ih =>
      obtain ⟨num, hk⟩ := live key (by simp)
      rw [List.filterMap_cons_some hk] at hn
      obtain ⟨absent, rest⟩ := List.nodup_cons.mp hn
      refine List.nodup_cons.mpr ⟨?_, ih rest fun k hm => live k (List.mem_cons_of_mem _ hm)⟩
      exact fun hm => absent (List.mem_filterMap.mpr ⟨key, hm, hk⟩)
  · intro h
    apply assignFresh_nodup (takenNumbers_bound m vars)
    · intro num hn
      obtain ⟨var, hv, hr⟩ := List.mem_map.mp hn
      exact mem_takenNumbers.mpr (Or.inl (List.mem_filterMap.mpr ⟨var, hv, hr⟩))
    · rw [same]
      refine List.Nodup.filterMap ?_ h
      intro k k' num hk hk'
      exact good.injective hk hk'

/-- Under the invariant no field lands on a retired number, so the guard of `freeze` is silent. -/
theorem resolvedNumbers_not_reserved {m : FieldMap} (good : m.Good) {vars : List Variable} {num : Nat}
    (h : num ∈ resolvedNumbers m vars) : num ∉ m.reserved := by
  obtain ⟨var, hv⟩ := List.exists_mem_zip_of_mem_right (resolvedNumbers_length m vars).symm h
  rcases resolvedNumbers_zip hv with ⟨key, _, hk⟩ | ⟨_, _, hr⟩
  · exact good.live hk
  · exact hr

/-- A number just assigned is not among those just retired. -/
theorem resolvedNumbers_not_retired {m : FieldMap} (good : m.Good) {vars : List Variable} {num : Nat}
    (h : num ∈ resolvedNumbers m vars) : num ∉ retiredNumbers m vars := by
  intro hr
  obtain ⟨⟨key, _⟩, he, rfl⟩ := List.mem_map.mp hr
  obtain ⟨hm, unclaimed⟩ := List.mem_filter.mp he
  have hkey := (Dict.get?_eq_some_iff _).mpr hm
  obtain ⟨var, hv⟩ := List.exists_mem_zip_of_mem_right (resolvedNumbers_length m vars).symm h
  rcases resolvedNumbers_zip hv with ⟨key', hc, hk'⟩ | ⟨_, hval, _⟩
  · obtain rfl := good.injective hkey hk'
    simp only [decide_not, Bool.not_eq_eq_eq_not, Bool.not_true, decide_eq_false_iff_not] at unclaimed
    exact unclaimed (List.mem_filterMap.mpr ⟨var, (List.of_mem_zip hv).1, hc⟩)
  · exact hval ((Dict.mem_values_iff _).mpr ⟨key, hkey⟩)

theorem mem_nextFieldMap_reserved {m : FieldMap} {vars : List Variable} {num : Nat} :
    num ∈ (nextFieldMap m vars).reserved ↔ num ∈ retiredNumbers m vars ∨ num ∈ m.reserved := by
  simp [nextFieldMap]

theorem resolvedNumbers_not_reserved_next {m : FieldMap} (good : m.Good) {vars : List Variable}
    {num : Nat} (h : num ∈ resolvedNumbers m vars) : num ∉ (nextFieldMap m vars).reserved := by
  rw [mem_nextFieldMap_reserved]
  rintro (hr | hr)
  · exact resolvedNumbers_not_retired good h hr
  · exact resolvedNumbers_not_reserved good h hr

theorem nextFieldMap_good {m : FieldMap} (good : m.Good) {vars : List Variable}
    (claims : NoSharedClaim m vars) : (nextFieldMap m vars).Good where
  injective hk hk' := by
    have nodup := (resolvedNumbers_nodup_iff good vars).mpr claims
    exact List.zip_left_unique nodup (Dict.mem_of_get?_ofPairs hk) (Dict.mem_of_get?_ofPairs hk')
  live hk := by
    obtain ⟨var, hv, _⟩ := mem_nextFieldMap hk
    exact resolvedNumbers_not_reserved_next good (List.of_mem_zip hv).2

end Harpia
