import Harpia.FieldMapHistory

namespace Harpia

open Text

section Claims

variable (W : WordClass) (file : String)

/-- In no generation of the history do two fields claim the same sidecar entry. -/
def ClaimsDistinct (history : List Version) : Prop :=
  ∀ before v, before ++ [v] <+: history → NoSharedClaim (registered W file before) v.vars

/-- In every generation that succeeds, all fields get distinct numbers. -/
def NumbersDistinct (history : List Version) : Prop :=
  ∀ before v, before ++ [v] <+: history → ∀ indices content,
    freeze W file (sidecarAfter W file before) v.vars = .ok indices content → indices.Nodup

variable {W file} {history before : List Version} {v : Version}

theorem ClaimsDistinct.of_extends (h : ClaimsDistinct W file history) (hp : before <+: history) :
    ClaimsDistinct W file before :=
  fun b v hb => h b v (hb.trans hp)

theorem claimsDistinct_nil (W : WordClass) (file : String) : ClaimsDistinct W file [] := by
  intro before v hp
  simp at hp

theorem claimsDistinct_concat : ClaimsDistinct W file (history ++ [v]) ↔
    ClaimsDistinct W file history ∧ NoSharedClaim (registered W file history) v.vars := by
  constructor
  · intro h
    exact ⟨h.of_extends (List.prefix_append _ _), h history v (List.prefix_refl _)⟩
  · rintro ⟨earlier, last⟩ before w hp
    rcases List.prefix_concat_iff.mp hp with he | hp
    · obtain ⟨rfl, rfl⟩ := List.append_singleton_inj.mp he
      exact last
    · exact earlier before w hp

theorem freeze_ok_of_good {m : FieldMap} (hm : load W (sidecarAfter W file before) = some m)
    (good : (registered W file before).Good) (vars : List Variable) :
    freeze W file (sidecarAfter W file before) vars =
      .ok (resolvedNumbers (registered W file before) vars)
        (save (nextFieldMap (registered W file before) vars)) := by
  rw [registered_of_load hm] at good ⊢
  exact (freeze_eq_ok_iff hm).mpr ⟨rfl, rfl, fun _ => resolvedNumbers_not_reserved good⟩

/-- The run lemma: distinct claims keep the sidecar invariant through every generation. -/
theorem good_of_claimsDistinct (h : ClaimsDistinct W file history) :
    (registered W file history).Good := by
  induction history using List.reverseRecOn with
  | nil => exact FieldMap.empty_good
  | append_singleton history v ih =>
    have good := ih (h.of_extends (List.prefix_append _ _))
    cases hm : load W (sidecarAfter W file history) with
    | none =>
      have stuck : sidecarAfter W file (history ++ [v]) = sidecarAfter W file history := by
        apply sidecarAfter_failed
        intro indices content
        rw [freeze_raised hm]
        exact Frozen.noConfusion
      rw [registered, stuck, hm, Option.getD_none]
      exact FieldMap.empty_good
    | some m =>
      have next := nextFieldMap_good good (claimsDistinct_concat.mp h).2
      rw [registered, sidecarAfter_ok (freeze_ok_of_good hm good v.vars)]
      cases hm' : load W (some (save (nextFieldMap (registered W file history) v.vars))) with
      | none => exact FieldMap.empty_good
      | some m' => exact next.load_save (oneLine_nextFieldMap _ v) hm'

/-- Generated field numbers are pairwise distinct throughout a history exactly when no generation
lets two fields claim the same sidecar entry. -/
theorem numbersDistinct_iff_claimsDistinct (W : WordClass) (file : String) (history : List Version) :
    NumbersDistinct W file history ↔ ClaimsDistinct W file history := by
  constructor
  · intro h
    induction history using List.reverseRecOn with
    | nil => exact claimsDistinct_nil W file
    | append_singleton history v ih =>
      have earlier := ih fun before w hp => h before w (hp.trans (List.prefix_append _ _))
      have good := good_of_claimsDistinct earlier
      refine claimsDistinct_concat.mpr ⟨earlier, ?_⟩
      cases hm : load W (sidecarAfter W file history) with
      | none =>
        -- a sidecar that is not read has no entry to claim
        rw [registered, hm, Option.getD_none]
        exact noSharedClaim_empty v.vars
      | some m =>
        have last := h history v (List.prefix_refl _) _ _ (freeze_ok_of_good hm good v.vars)
        exact (resolvedNumbers_nodup_iff good v.vars).mp last
  · intro h before v hp indices content hf
    have good := good_of_claimsDistinct (h.of_extends ((List.prefix_append _ _).trans hp))
    obtain ⟨rfl, _⟩ := freeze_ok_registered hf
    exact (resolvedNumbers_nodup_iff good v.vars).mpr (h before v hp)

end Claims

/-- A version whose only declared field is a string `ID_x`. -/
def legacyNamedVersion : Version where
  user := [{ name := "ID_x", type := .STRING }]
  names_nodup := by decide
  names_oneLine := by simp [OneLine]
  names_allowed := by decide

/-- Its second generation: `ID_x` shares the identity of `HARPIA_ID`, so both get the number 2. -/
theorem freeze_legacyNamed_again :
    ∃ content, freeze .ascii "root.harpia" (sidecarAfter .ascii "root.harpia" [legacyNamedVersion])
      legacyNamedVersion.vars = .ok [2, 2, 3, 4, 5] content := by
  refine ⟨save (nextFieldMap ⟨Dict.ofPairs [("ID", 2), ("STATUS", 3), ("ERROR", 4),
    ("ORIGINATOR", 5)], NatSet.empty⟩ legacyNamedVersion.vars), ?_⟩
  decide +kernel

theorem not_numbersDistinct_legacyNamed :
    ¬ NumbersDistinct .ascii "root.harpia" [legacyNamedVersion, legacyNamedVersion] := by
  intro h
  obtain ⟨content, hf⟩ := freeze_legacyNamed_again
  exact absurd (h [legacyNamedVersion] legacyNamedVersion (List.prefix_refl _) _ _ hf) (by decide)

section Retired

variable {W : WordClass} {file : String} {before after mid : List Version} {v : Version} {num : Nat}

theorem reserved_subset_concat (readable : (load W (sidecarAfter W file (before ++ [v]))).isSome)
    (h : num ∈ (registered W file before).reserved) :
    num ∈ (registered W file (before ++ [v])).reserved := by
  by_cases hf : ∃ indices content,
      freeze W file (sidecarAfter W file before) v.vars = .ok indices content
  · obtain ⟨indices, content, hf⟩ := hf
    obtain ⟨_, rfl, _⟩ := freeze_ok_registered hf
    obtain ⟨m', hm'⟩ := Option.isSome_iff_exists.mp readable
    have loaded := hm'
    rw [sidecarAfter_ok hf] at loaded
    rw [registered_of_load hm']
    apply (load_save_reads (oneLine_nextFieldMap _ v) loaded).2.2
    exact mem_nextFieldMap_reserved.mpr (.inr h)
  · rw [registered, sidecarAfter_failed fun indices content he => hf ⟨indices, content, he⟩]
    exact h

/-- A retired number stays retired, in every history. -/
theorem reserved_subset_of_extends (hp : before <+: after)
    (readable : (load W (sidecarAfter W file after)).isSome)
    (h : num ∈ (registered W file before).reserved) : num ∈ (registered W file after).reserved := by
  obtain ⟨rest, rfl⟩ := hp
  induction rest using List.reverseRecOn with
  | nil => simpa using h
  | append_singleton rest v ih =>
    rw [← List.append_assoc] at readable ⊢
    exact reserved_subset_concat readable (ih (load_of_extends (List.prefix_append _ _) readable))

/-- A retired number is never assigned again, in every history. -/
theorem reserved_never_assigned {vars : List Variable} (hp : before <+: mid) {indices : List Nat}
    {content : List Char} (hf : freeze W file (sidecarAfter W file mid) vars = .ok indices content)
    (h : num ∈ (registered W file before).reserved) : num ∉ indices := by
  obtain ⟨m, hm⟩ := exists_load_of_freeze hf
  have free := ((freeze_eq_ok_iff hm).mp hf).2.2
  rw [← registered_of_load hm] at free
  exact fun there => free num there (reserved_subset_of_extends hp (by rw [hm]; rfl) h)

end Retired

section Stability

variable (W : WordClass) (file : String) (history : List Version)

/-- What wire compatibility asks of a history: retired numbers stay retired and unused, a live
number is not retired, and an unmarked field that stays keeps its number. -/
structure WireStable : Prop where
  retired_kept : ∀ before after, before <+: after → after <+: history →
    ∀ num ∈ (registered W file before).reserved, num ∈ (registered W file after).reserved
  retired_unused : ∀ before mid v, before <+: mid → mid ++ [v] <+: history →
    ∀ indices content, freeze W file (sidecarAfter W file mid) v.vars = .ok indices content →
      ∀ num ∈ (registered W file before).reserved, num ∉ indices
  live_not_retired : ∀ before v, before ++ [v] <+: history →
    ∀ indices content, freeze W file (sidecarAfter W file before) v.vars = .ok indices content →
      ∀ num, num ∈ indices ∨ num ∈ (registered W file (before ++ [v])).numbers.values →
        num ∉ (registered W file (before ++ [v])).reserved
  field_kept : ∀ before v w, before ++ [v] ++ [w] <+: history →
    ∀ indices content, freeze W file (sidecarAfter W file before) v.vars = .ok indices content →
    ∀ indices' content', freeze W file (sidecarAfter W file (before ++ [v])) w.vars =
      .ok indices' content' →
    ∀ x num, (x, num) ∈ v.vars.zip indices → ∀ y num', (y, num') ∈ w.vars.zip indices' →
      x.name = y.name → y.renamedFrom = none → num = num'

end Stability

def identities (v : Version) : List String := v.vars.map fun var => identity var.name

section Distinct

variable {W : WordClass} {file : String}

/-- Two versions in a row, the first with distinct identities that are read back: an unmarked field of
the second finds its own entry. -/
theorem field_kept_of_identities {before : List Version} {v w : Version} (readable : v.Readable W)
    (nodup : (identities v).Nodup) {indices indices' : List Nat} {content content' : List Char}
    (hf : freeze W file (sidecarAfter W file before) v.vars = .ok indices content)
    (hf' : freeze W file (sidecarAfter W file (before ++ [v])) w.vars = .ok indices' content')
    {x y : Variable} {num num' : Nat} (hx : (x, num) ∈ v.vars.zip indices)
    (hy : (y, num') ∈ w.vars.zip indices') (name : x.name = y.name) (unmarked : y.renamedFrom = none) :
    num = num' := by
  obtain ⟨rfl, _⟩ := freeze_ok_registered hf
  obtain ⟨rfl, _⟩ := freeze_ok_registered hf'
  have hkeys : (((v.vars.map fun var => identity var.name).zip
      (resolvedNumbers (registered W file before) v.vars)).map Prod.fst).Nodup := by
    rw [List.map_fst_zip (by simp [resolvedNumbers_length])]
    exact nodup
  have entry : (registered W file (before ++ [v])).numbers.get? (identity y.name) = some num := by
    rw [(registered_concat_ok readable hf).2.2, nextFieldMap, Dict.get?_ofPairs_of_nodup hkeys]
    exact List.mem_zip_map_left.mpr ⟨x, hx, by rw [name]⟩
  have claim : claimedKey (registered W file (before ++ [v])).numbers y = some (identity y.name) := by
    simp [claimedKey, renamedKey, unmarked, keptKey, entry]
  rcases resolvedNumbers_zip hy with ⟨key, hc, hk⟩ | ⟨hc, _⟩
  · cases Option.some.inj (claim.symm.trans hc)
    exact Option.some.inj (entry.symm.trans hk)
  · simp [claim] at hc

/-- Every history whose generations have distinct claims and distinct identities that are read back is
wire stable. -/
theorem wireStable_of_distinct (W : WordClass) (file : String) (history : List Version)
    (claims : ClaimsDistinct W file history) (nodup : ∀ v ∈ history, (identities v).Nodup)
    (readable : ∀ v ∈ history, v.Readable W) : WireStable W file history where
  retired_kept _ _ hp hp' _ h :=
    reserved_subset_of_extends hp (load_of_readable fun v hv => readable v (hp'.subset hv)) h
  retired_unused _ _ _ hp _ _ _ hf _ h := reserved_never_assigned hp hf h
  live_not_retired before v hp indices content hf num hn := by
    have good := good_of_claimsDistinct (claims.of_extends ((List.prefix_append _ _).trans hp))
    have names : v.Readable W := readable v (hp.subset (by simp))
    obtain ⟨rfl, _⟩ := freeze_ok_registered hf
    rcases hn with hn | hn
    · rw [(registered_concat_ok names hf).2.1]
      exact resolvedNumbers_not_reserved_next good hn
    · obtain ⟨key, hk⟩ := (Dict.mem_values_iff _).mp hn
      exact (good_of_claimsDistinct (claims.of_extends hp)).live hk
  field_kept before v w hp indices content hf indices' content' hf' x num hx y num' hy name unmarked := by
    have hv : v ∈ history := hp.subset (by simp)
    exact field_kept_of_identities (readable v hv) (nodup v hv) hf hf' hx hy name unmarked

end Distinct

/-- A lone field `b`. -/
def singleVersion : Version where
  user := [{ name := "b", type := .STRING }]
  names_nodup := by decide
  names_oneLine := by simp [OneLine]
  names_allowed := by decide

/-- The same field, renamed to `a`. -/
def renamedVersion : Version where
  user := [{ name := "a", type := .STRING, modifiers := [.RENAMED_FROM], renamedFrom := some "b" }]
  names_nodup := by decide
  names_oneLine := by simp [OneLine]
  names_allowed := by decide

/-- A new field `b` beside the renamed one, whose marker is still in the source. -/
def readdedVersion : Version where
  user := [{ name := "a", type := .STRING, modifiers := [.RENAMED_FROM], renamedFrom := some "b" },
    { name := "b", type := .STRING }]
  names_nodup := by decide
  names_oneLine := by simp [OneLine]
  names_allowed := by decide

theorem claimsDistinct_renaming :
    ClaimsDistinct .ascii "root.harpia" [singleVersion, renamedVersion] := by
  rw [show [singleVersion, renamedVersion] = [] ++ [singleVersion] ++ [renamedVersion] from rfl,
    claimsDistinct_concat, claimsDistinct_concat]
  refine ⟨⟨claimsDistinct_nil _ _, ?_⟩, ?_⟩ <;> decide +kernel

theorem wireStable_renaming : WireStable .ascii "root.harpia" [singleVersion, renamedVersion] := by
  apply wireStable_of_distinct _ _ _ claimsDistinct_renaming
  · intro v hv
    simp only [List.mem_cons, List.not_mem_nil, or_false] at hv
    rcases hv with rfl | rfl <;> decide +kernel
  · intro v hv
    simp only [List.mem_cons, List.not_mem_nil, or_false] at hv
    rcases hv with rfl | rfl <;> decide +kernel

/-- Generated twice, the version with a field `ID_x` moves `HARPIA_ID` from 1 to 2. -/
theorem not_wireStable_legacyNamed :
    ¬ WireStable .ascii "root.harpia" [legacyNamedVersion, legacyNamedVersion] := by
  intro h
  obtain ⟨content, hf⟩ := freeze_legacyNamed_again
  have first : ∃ content, freeze .ascii "root.harpia" (sidecarAfter .ascii "root.harpia" [])
      legacyNamedVersion.vars = .ok [1, 2, 3, 4, 5] content :=
    ⟨save ⟨Dict.ofPairs [("ID", 2), ("STATUS", 3), ("ERROR", 4), ("ORIGINATOR", 5)], NatSet.empty⟩,
      by decide +kernel⟩
  obtain ⟨content', hf'⟩ := first
  have moved := h.field_kept [] legacyNamedVersion legacyNamedVersion (List.prefix_refl _) _ _ hf' _ _ hf
    harpiaId 1 (by decide) harpiaId 2 (by decide) rfl rfl
  exact absurd moved (by decide)

end Harpia
