import Harpia.Errors
import Harpia.FieldMapFile
import Harpia.Lib.Zip
import Harpia.Variable

namespace Harpia

open Text

/-- First loop of `freeze`: the old name a `renamed_from` marker finds in the sidecar. -/
def renamedKey (numbers : Dict String Nat) (var : Variable) : Option String :=
  var.renamedFrom.filter fun old => (numbers.get? old).isSome

/-- Second loop of `freeze`: the field's own identity, when the sidecar has it. -/
def keptKey (numbers : Dict String Nat) (var : Variable) : Option String :=
  if (numbers.get? (identity var.name)).isSome then some (identity var.name) else none

/-- The sidecar entry a field takes its number from, if any; these are the `consumedOld` keys. -/
def claimedKey (numbers : Dict String Nat) (var : Variable) : Option String :=
  (renamedKey numbers var).or (keptKey numbers var)

def resolvedNumber (numbers : Dict String Nat) (var : Variable) : Option Nat :=
  (claimedKey numbers var).bind numbers.get?

/-- `while nextNum in taken: nextNum += 1`, within `taken`'s size. -/
def nextFree (taken : NatSet) : Nat → Nat → Nat
  | 0, nextNum => nextNum
  | fuel + 1, nextNum => if nextNum ∈ taken then nextFree taken fuel (nextNum + 1) else nextNum

/-- Third loop of `freeze`: fields without a number get fresh ones in declaration order. -/
def assignFresh (taken : NatSet) (nextNum : Nat) : List (Option Nat) → List Nat
  | [] => []
  | some num :: rest => num :: assignFresh taken nextNum rest
  | none :: rest =>
    let num := nextFree taken (taken.elems.length + 1) nextNum
    num :: assignFresh (taken.insert num) num rest

def takenNumbers (m : FieldMap) (vars : List Variable) : NatSet :=
  (m.reserved.insertAll m.numbers.values).insertAll (vars.filterMap (resolvedNumber m.numbers))

/-- `resolved`, in declaration order. -/
def resolvedNumbers (m : FieldMap) (vars : List Variable) : List Nat :=
  assignFresh (takenNumbers m vars) (takenNumbers m vars).succMax
    (vars.map (resolvedNumber m.numbers))

def consumedOld (m : FieldMap) (vars : List Variable) : List String :=
  vars.filterMap (claimedKey m.numbers)

/-- The numbers of the entries no current field accounts for. -/
def retiredNumbers (m : FieldMap) (vars : List Variable) : List Nat :=
  (m.numbers.entries.filter fun e => e.1 ∉ consumedOld m vars).map Prod.snd

def nextFieldMap (m : FieldMap) (vars : List Variable) : FieldMap where
  numbers := Dict.ofPairs ((vars.map fun var => identity var.name).zip (resolvedNumbers m vars))
  reserved := m.reserved.insertAll (retiredNumbers m vars)

/-- How a call of `freeze` ends: an unreadable reserved line makes `int` raise; otherwise it
returns an `Error`, or `None` with the numbers assigned and the sidecar rewritten. -/
inductive Frozen
  | raised
  | error (err : Error)
  | ok (indices : List Nat) (content : List Char)
deriving DecidableEq

def freeze (W : WordClass) (harpiaFile : String) (sidecar : Option (List Char))
    (vars : List Variable) : Frozen :=
  match load W sidecar with
  | none => .raised
  | some m =>
    if ∃ num ∈ resolvedNumbers m vars, num ∈ m.reserved then
      .error {
        errCl := .VARTYPES
        errTp := .RESERVED_FIELD_NUMBER_REUSED
        fileName := harpiaFile
        fileLine := "0"
        characterNumber := "0" }
    else .ok (resolvedNumbers m vars) (save (nextFieldMap m vars))

/-- No two fields of the version take their number from the same sidecar entry. -/
def NoSharedClaim (m : FieldMap) (vars : List Variable) : Prop :=
  (vars.filterMap (claimedKey m.numbers)).Nodup

instance (m : FieldMap) (vars : List Variable) : Decidable (NoSharedClaim m vars) :=
  inferInstanceAs (Decidable (List.Nodup _))

theorem claimedKey_live {numbers : Dict String Nat} {var : Variable} {key : String}
    (h : claimedKey numbers var = some key) : ∃ num, numbers.get? key = some num := by
  rcases Option.or_eq_some_iff.mp h with h | ⟨_, h⟩
  · exact Option.isSome_iff_exists.mp (Option.filter_eq_some_iff.mp h).2
  · unfold keptKey at h
    split at h
    next hs =>
      cases Option.some.inj h
      exact Option.isSome_iff_exists.mp hs
    next => simp at h

theorem freeze_eq_ok_iff {W : WordClass} {file : String} {sidecar : Option (List Char)}
    {vars : List Variable} {indices : List Nat} {content : List Char} {m : FieldMap}
    (hm : load W sidecar = some m) : freeze W file sidecar vars = .ok indices content ↔
      indices = resolvedNumbers m vars ∧ content = save (nextFieldMap m vars) ∧
        ∀ num ∈ indices, num ∉ m.reserved := by
  unfold freeze
  rw [hm]
  simp only
  split
  next h =>
    obtain ⟨num, hn, hr⟩ := h
    simp only [reduceCtorEq, false_iff, not_and]
    rintro rfl _ hfree
    exact hfree num hn hr
  next h =>
    simp only [Frozen.ok.injEq]
    constructor
    · rintro ⟨rfl, rfl⟩
      exact ⟨rfl, rfl, fun num hn hr => h ⟨num, hn, hr⟩⟩
    · rintro ⟨rfl, rfl, _⟩
      exact ⟨rfl, rfl⟩

theorem noSharedClaim_empty (vars : List Variable) : NoSharedClaim FieldMap.empty vars := by
  have none_ : vars.filterMap (claimedKey FieldMap.empty.numbers) = [] := by
    apply List.filterMap_eq_nil_iff.mpr
    intro var _
    cases hc : claimedKey FieldMap.empty.numbers var with
    | none => rfl
    | some key =>
      obtain ⟨num, hn⟩ := claimedKey_live hc
      simp [FieldMap.empty] at hn
  rw [NoSharedClaim, none_]
  exact List.nodup_nil

theorem freeze_raised {W : WordClass} {sidecar : Option (List Char)} (h : load W sidecar = none)
    (file : String) (vars : List Variable) : freeze W file sidecar vars = .raised := by
  rw [freeze, h]

theorem exists_load_of_freeze {W : WordClass} {file : String} {sidecar : Option (List Char)}
    {vars : List Variable} {indices : List Nat} {content : List Char}
    (h : freeze W file sidecar vars = .ok indices content) : ∃ m, load W sidecar = some m := by
  cases hm : load W sidecar with
  | none =>
    rw [freeze_raised hm] at h
    cases h
  | some m => exact ⟨m, rfl⟩

/-- The search stops right past the largest taken number, so its bound is never reached. -/
theorem nextFree_spec {taken : NatSet} {nextNum : Nat} (h : ∀ k ∈ taken, k ≤ nextNum) :
    nextFree taken (taken.elems.length + 1) nextNum ∉ taken ∧
      nextNum ≤ nextFree taken (taken.elems.length + 1) nextNum := by
  have past : nextNum + 1 ∉ taken := fun hm => absurd (h _ hm) (by omega)
  by_cases hn : nextNum ∈ taken
  · obtain ⟨len, hlen⟩ : ∃ len, taken.elems.length = len + 1 :=
      Nat.exists_eq_succ_of_ne_zero (List.length_pos_of_mem hn).ne'
    simp only [hlen, nextFree, if_pos hn, if_neg past]
    exact ⟨past, Nat.le_succ _⟩
  · simp only [nextFree, if_neg hn]
    exact ⟨hn, le_rfl⟩

theorem bound_insert {taken : NatSet} {nextNum : Nat} (h : ∀ k ∈ taken, k ≤ nextNum) :
    ∀ k ∈ taken.insert (nextFree taken (taken.elems.length + 1) nextNum),
      k ≤ nextFree taken (taken.elems.length + 1) nextNum := by
  intro k hk
  rcases NatSet.mem_insert.mp hk with rfl | hk
  · exact le_rfl
  · exact (h k hk).trans (nextFree_spec h).2

/-- Position by position: a resolved number is kept, any other number is fresh. -/
theorem assignFresh_forall₂ {taken : NatSet} {nextNum : Nat} (h : ∀ k ∈ taken, k ≤ nextNum)
    (os : List (Option Nat)) :
    List.Forall₂ (fun o num => o = some num ∨ o = none ∧ num ∉ taken) os
      (assignFresh taken nextNum os) := by
  induction os generalizing taken nextNum with
  | nil => exact List.Forall₂.nil
  | cons o os ih =>
    cases o with
    | some num => exact List.Forall₂.cons (Or.inl rfl) (ih h)
    | none =>
      refine List.Forall₂.cons (Or.inr ⟨rfl, (nextFree_spec h).1⟩) ?_
      refine (ih (bound_insert h)).imp ?_
      rintro o num (rfl | ⟨rfl, hn⟩)
      · exact Or.inl rfl
      · exact Or.inr ⟨rfl, fun hm => hn (NatSet.mem_insert.mpr (Or.inr hm))⟩

theorem assignFresh_length {taken : NatSet} {nextNum : Nat} (h : ∀ k ∈ taken, k ≤ nextNum)
    (os : List (Option Nat)) : (assignFresh taken nextNum os).length = os.length :=
  (assignFresh_forall₂ h os).length_eq.symm

theorem mem_assignFresh {taken : NatSet} {nextNum num : Nat} (h : ∀ k ∈ taken, k ≤ nextNum)
    {os : List (Option Nat)} (hm : num ∈ assignFresh taken nextNum os) :
    some num ∈ os ∨ num ∉ taken := by
  obtain ⟨o, ho⟩ := List.exists_mem_zip_of_mem_right (assignFresh_length h os).symm hm
  rcases (List.forall₂_iff_zip.mp (assignFresh_forall₂ h os)).2 ho with rfl | ⟨_, hn⟩
  · exact Or.inl (List.of_mem_zip ho).1
  · exact Or.inr hn

/-- Fresh numbers repeat neither each other nor a resolved number. -/
theorem assignFresh_nodup {taken : NatSet} {nextNum : Nat} (h : ∀ k ∈ taken, k ≤ nextNum)
    {os : List (Option Nat)} (resolved : ∀ num, some num ∈ os → num ∈ taken)
    (nodup : (os.filterMap id).Nodup) : (assignFresh taken nextNum os).Nodup := by
  induction os generalizing taken nextNum with
  | nil => exact List.nodup_nil
  | cons o os ih =>
    cases o with
    | some num =>
      obtain ⟨absent, rest⟩ := List.nodup_cons.mp nodup
      refine List.nodup_cons.mpr ⟨?_, ih h (fun k hk => resolved k (by simp [hk])) rest⟩
      intro hm
      rcases mem_assignFresh h hm with hr | hn
      · exact absent (List.mem_filterMap.mpr ⟨some num, hr, rfl⟩)
      · exact hn (resolved num (by simp))
    | none =>
      have fresh := (nextFree_spec h).1
      refine List.nodup_cons.mpr ⟨?_, ih (bound_insert h) ?_ nodup⟩
      · intro hm
        rcases mem_assignFresh (bound_insert h) hm with hr | hn
        · exact fresh (resolved _ (by simp [hr]))
        · exact hn (NatSet.mem_insert.mpr (Or.inl rfl))
      · intro num hn
        exact NatSet.mem_insert.mpr (Or.inr (resolved num (by simp [hn])))

theorem filterMap_sublist_assignFresh {taken : NatSet} {nextNum : Nat} (os : List (Option Nat)) :
    (os.filterMap id).Sublist (assignFresh taken nextNum os) := by
  induction os generalizing taken nextNum with
  | nil => exact List.Sublist.slnil
  | cons o os ih =>
    cases o with
    | some num => exact List.Sublist.cons_cons num ih
    | none => exact List.Sublist.cons _ ih

theorem takenNumbers_bound (m : FieldMap) (vars : List Variable) :
    ∀ k ∈ takenNumbers m vars, k ≤ (takenNumbers m vars).succMax :=
  fun _ hk => (NatSet.lt_succMax hk).le

theorem mem_takenNumbers {m : FieldMap} {vars : List Variable} {num : Nat} :
    num ∈ takenNumbers m vars ↔
      num ∈ vars.filterMap (resolvedNumber m.numbers) ∨ num ∈ m.numbers.values ∨ num ∈ m.reserved := by
  simp [takenNumbers]

theorem resolvedNumbers_length (m : FieldMap) (vars : List Variable) :
    (resolvedNumbers m vars).length = vars.length := by
  rw [resolvedNumbers, assignFresh_length (takenNumbers_bound m vars), List.length_map]

/-- What one field is given: the number of the entry it claims, else one not taken. -/
theorem resolvedNumbers_zip {m : FieldMap} {vars : List Variable} {var : Variable} {num : Nat}
    (h : (var, num) ∈ vars.zip (resolvedNumbers m vars)) :
    (∃ key, claimedKey m.numbers var = some key ∧ m.numbers.get? key = some num) ∨
      claimedKey m.numbers var = none ∧ num ∉ m.numbers.values ∧ num ∉ m.reserved := by
  have hall := assignFresh_forall₂ (takenNumbers_bound m vars) (vars.map (resolvedNumber m.numbers))
  have hz : (resolvedNumber m.numbers var, num) ∈
      (vars.map (resolvedNumber m.numbers)).zip (resolvedNumbers m vars) :=
    List.mem_zip_map_left.mpr ⟨var, h, rfl⟩
  rcases (List.forall₂_iff_zip.mp hall).2 hz with hr | ⟨hr, hn⟩
  · exact Or.inl (Option.bind_eq_some_iff.mp hr)
  · refine Or.inr ⟨?_, fun hv => hn (mem_takenNumbers.mpr (Or.inr (Or.inl hv))),
      fun hv => hn (mem_takenNumbers.mpr (Or.inr (Or.inr hv)))⟩
    cases hc : claimedKey m.numbers var with
    | none => rfl
    | some key =>
      obtain ⟨v, hv⟩ := claimedKey_live hc
      simp [resolvedNumber, hc, hv] at hr

end Harpia
