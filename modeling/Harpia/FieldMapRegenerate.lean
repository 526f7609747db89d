import Harpia.FieldMapStability

namespace Harpia

open Text

/-- Generating an unchanged version once more assigns the same numbers and rewrites the sidecar with
the content it has. -/
def Regenerates (W : WordClass) (file : String) (before : List Version) (v : Version) : Prop :=
  ∀ indices content, freeze W file (sidecarAfter W file before) v.vars = .ok indices content →
    freeze W file (some content) v.vars = .ok indices content

/-- No field's `renamed_from` names another field of the same version. -/
def MarkersSettled (v : Version) : Prop :=
  ∀ x ∈ v.vars, ∀ y ∈ v.vars, x.renamedFrom = some (identity y.name) → identity x.name = identity y.name

instance (v : Version) : Decidable (MarkersSettled v) :=
  inferInstanceAs (Decidable (∀ x ∈ v.vars, ∀ y ∈ v.vars, _))

theorem identity_live_next {m : FieldMap} {vars : List Variable} {var : Variable} (h : var ∈ vars) :
    ∃ num, (nextFieldMap m vars).numbers.get? (identity var.name) = some num := by
  apply Dict.exists_get?_ofPairs
  rw [List.map_fst_zip (by simp [resolvedNumbers_length])]
  exact List.mem_map.mpr ⟨var, h, rfl⟩

/-- Settled markers are spent: on the sidecar the version itself left, every field claims its own
identity. -/
theorem claimedKey_next_of_settled {m m' : FieldMap} {v : Version} (settled : MarkersSettled v)
    (numbers : ∀ k, m'.numbers.get? k = (nextFieldMap m v.vars).numbers.get? k)
    {var : Variable} (h : var ∈ v.vars) : claimedKey m'.numbers var = some (identity var.name) := by
  obtain ⟨num, hn⟩ := identity_live_next (m := m) h
  have kept : keptKey m'.numbers var = some (identity var.name) := by
    simp [keptKey, numbers, hn]
  cases hr : renamedKey m'.numbers var with
  | none => simp [claimedKey, hr, kept]
  | some old =>
    obtain ⟨marker, live⟩ := Option.filter_eq_some_iff.mp hr
    obtain ⟨num', hn'⟩ := Option.isSome_iff_exists.mp live
    rw [numbers] at hn'
    obtain ⟨y, hy, rfl⟩ := mem_nextFieldMap hn'
    have same := settled var h y (List.of_mem_zip hy).1 marker
    simp [claimedKey, hr, same]

theorem resolvedNumbers_eq_of_claims {m m' : FieldMap} {vars : List Variable}
    (nodup : (vars.map fun var => identity var.name).Nodup)
    (numbers : ∀ k, m'.numbers.get? k = (nextFieldMap m vars).numbers.get? k)
    (claims : ∀ var ∈ vars, claimedKey m'.numbers var = some (identity var.name)) :
    resolvedNumbers m' vars = resolvedNumbers m vars := by
  have hkeys : (((vars.map fun var => identity var.name).zip (resolvedNumbers m vars)).map
      Prod.fst).Nodup := by
    rw [List.map_fst_zip (by simp [resolvedNumbers_length])]
    exact nodup
  apply List.ext_getElem (by simp [resolvedNumbers_length])
  intro i hi hi'
  have hv : i < vars.length := by simpa [resolvedNumbers_length] using hi
  have first : (vars[i], (resolvedNumbers m vars)[i]) ∈ vars.zip (resolvedNumbers m vars) := by
    rw [← List.getElem_zip (h := by simp [hv, hi'])]
    exact List.getElem_mem _
  have second : (vars[i], (resolvedNumbers m' vars)[i]) ∈ vars.zip (resolvedNumbers m' vars) := by
    rw [← List.getElem_zip (h := by simp [hv, hi])]
    exact List.getElem_mem _
  have entry : m'.numbers.get? (identity vars[i].name) = some (resolvedNumbers m vars)[i] := by
    rw [numbers, nextFieldMap, Dict.get?_ofPairs_of_nodup hkeys]
    exact List.mem_zip_map_left.mpr ⟨vars[i], first, rfl⟩
  have claim := claims vars[i] (List.getElem_mem hv)
  rcases resolvedNumbers_zip second with ⟨key, hc, hk⟩ | ⟨hc, _⟩
  · cases Option.some.inj (claim.symm.trans hc)
    exact (Option.some.inj (entry.symm.trans hk)).symm
  · simp [claim] at hc

theorem retiredNumbers_eq_nil_of_claims {m m' : FieldMap} {vars : List Variable}
    (numbers : ∀ k, m'.numbers.get? k = (nextFieldMap m vars).numbers.get? k)
    (claims : ∀ var ∈ vars, claimedKey m'.numbers var = some (identity var.name)) :
    retiredNumbers m' vars = [] := by
  rw [retiredNumbers, List.map_eq_nil_iff, List.filter_eq_nil_iff]
  rintro ⟨key, num⟩ he
  have hk : (nextFieldMap m vars).numbers.get? key = some num :=
    (numbers key).symm.trans ((Dict.get?_eq_some_iff _).mpr he)
  obtain ⟨var, hv, rfl⟩ := mem_nextFieldMap hk
  have hm := (List.of_mem_zip hv).1
  simpa [consumedOld] using ⟨var, hm, claims var hm⟩

section Regenerate

variable {W : WordClass} {file : String} {before : List Version} {v : Version}

theorem regenerates_of_settled (good : (registered W file before).Good) (readable : v.Readable W)
    (nodup : (identities v).Nodup) (settled : MarkersSettled v) : Regenerates W file before v := by
  intro indices content hf
  obtain ⟨loaded, reserved, numbers⟩ := registered_concat_ok readable hf
  obtain ⟨rfl, rfl, _⟩ := freeze_ok_registered hf
  have claims := fun (var : Variable) (h : var ∈ v.vars) =>
    claimedKey_next_of_settled settled numbers h
  have same := resolvedNumbers_eq_of_claims nodup numbers claims
  have next : nextFieldMap (registered W file (before ++ [v])) v.vars =
      nextFieldMap (registered W file before) v.vars := by
    rw [nextFieldMap, same, retiredNumbers_eq_nil_of_claims numbers claims, reserved]
    rfl
  refine (freeze_eq_ok_iff loaded).mpr ⟨same.symm, by rw [next], ?_⟩
  intro num hn
  rw [reserved]
  exact resolvedNumbers_not_reserved_next good hn

theorem settled_of_regenerates (claims : ClaimsDistinct W file (before ++ [v]))
    (readable : v.Readable W) {indices : List Nat} {content : List Char}
    (hf : freeze W file (sidecarAfter W file before) v.vars = .ok indices content)
    (h : Regenerates W file before v) : (identities v).Nodup ∧ MarkersSettled v := by
  have good := good_of_claimsDistinct (claims.of_extends (List.prefix_append before [v]))
  have again := h _ _ hf
  obtain ⟨loaded, _, numbers⟩ := registered_concat_ok readable hf
  obtain ⟨rfl, _⟩ := freeze_ok_registered hf
  obtain ⟨same, _⟩ := (freeze_eq_ok_iff loaded).mp again
  have distinct := (resolvedNumbers_nodup_iff good v.vars).mpr (claims before v (List.prefix_refl _))
  -- the entry a field claims the second time holds its own number, hence is its own identity
  have own : ∀ x num, (x, num) ∈ v.vars.zip (resolvedNumbers (registered W file before) v.vars) →
      claimedKey (registered W file (before ++ [v])).numbers x = some (identity x.name) ∧
        (registered W file (before ++ [v])).numbers.get? (identity x.name) = some num := by
    intro x num hx
    rcases resolvedNumbers_zip (same ▸ hx) with ⟨key, hc, hk⟩ | ⟨hc, _⟩
    · have hk' := hk
      rw [numbers] at hk'
      have hown : (identity x.name, num) ∈ (v.vars.map fun var => identity var.name).zip
          (resolvedNumbers (registered W file before) v.vars) :=
        List.mem_zip_map_left.mpr ⟨x, hx, rfl⟩
      obtain rfl := List.zip_left_unique distinct (Dict.mem_of_get?_ofPairs hk') hown
      exact ⟨hc, hk⟩
    · obtain ⟨num', hn'⟩ := identity_live_next (m := registered W file before) (List.of_mem_zip hx).1
      rw [← numbers] at hn'
      simp [claimedKey, keptKey, hn'] at hc
  constructor
  · apply List.nodup_left_of_zip (by simp [identities, resolvedNumbers_length]) distinct
    intro key num num' hn hn'
    obtain ⟨x, hx, hxk⟩ := List.mem_zip_map_left.mp hn
    obtain ⟨y, hy, hyk⟩ := List.mem_zip_map_left.mp hn'
    have hxe := (own x num hx).2
    have hye := (own y num' hy).2
    rw [hxk] at hxe
    rw [hyk] at hye
    exact Option.some.inj (hxe.symm.trans hye)
  · intro x hx y hy marker
    obtain ⟨num, hz⟩ := List.exists_mem_zip_of_mem_left
      (resolvedNumbers_length (registered W file before) v.vars).symm hx
    obtain ⟨num', hn'⟩ := identity_live_next (m := registered W file before) hy
    rw [← numbers] at hn'
    have hc := (own x num hz).1
    have hr : renamedKey (registered W file (before ++ [v])).numbers x = some (identity y.name) := by
      simp [renamedKey, marker, hn', Option.filter]
    rw [claimedKey, hr, Option.some_or] at hc
    exact (Option.some.inj hc).symm

/-- After a history of distinct claims, regenerating the last version, whose names are read back,
changes nothing exactly when its fields have distinct identities and no `renamed_from` names another
of its fields. -/
theorem regenerates_iff (W : WordClass) (file : String) (before : List Version) (v : Version)
    (claims : ClaimsDistinct W file (before ++ [v])) (readable : v.Readable W) {indices : List Nat}
    {content : List Char} (hf : freeze W file (sidecarAfter W file before) v.vars = .ok indices content) :
    Regenerates W file before v ↔ (identities v).Nodup ∧ MarkersSettled v := by
  constructor
  · exact settled_of_regenerates claims readable hf
  · rintro ⟨nodup, settled⟩
    exact regenerates_of_settled
      (good_of_claimsDistinct (claims.of_extends (List.prefix_append before [v]))) readable nodup settled

end Regenerate

/-- Renaming a lone field `b` to `a`: the marker is still in the source when the schema is generated
again. -/
theorem regenerates_renaming : Regenerates .ascii "root.harpia" [singleVersion] renamedVersion := by
  have renamed : freeze .ascii "root.harpia" (sidecarAfter .ascii "root.harpia" [singleVersion])
      renamedVersion.vars = .ok [1, 2, 3, 4, 5]
        (save ⟨Dict.ofPairs [("ID", 1), ("a", 2), ("STATUS", 3), ("ERROR", 4), ("ORIGINATOR", 5)],
          NatSet.empty⟩) := by decide +kernel
  exact (regenerates_iff _ _ _ _ claimsDistinct_renaming (by decide +kernel) renamed).mpr
    ⟨by decide +kernel, by decide +kernel⟩

/-- Declaring `b` anew beside `a renamed_from[b]` works once; the next generation of the same schema
moves `a` onto the number of `b`. -/
theorem not_regenerates_readded :
    ¬ Regenerates .ascii "root.harpia" [singleVersion, renamedVersion] readdedVersion := by
  intro h
  have first : freeze .ascii "root.harpia"
      (sidecarAfter .ascii "root.harpia" [singleVersion, renamedVersion]) readdedVersion.vars = .ok [1, 2, 6, 3, 4, 5]
        (save ⟨Dict.ofPairs [("ID", 1), ("a", 2), ("b", 6), ("STATUS", 3), ("ERROR", 4),
          ("ORIGINATOR", 5)], NatSet.empty⟩) := by decide +kernel
  have again := h _ _ first
  revert again
  decide +kernel

end Harpia
