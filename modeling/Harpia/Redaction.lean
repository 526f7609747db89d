import Harpia.Serialize
import Mathlib.Data.Fintype.Card

namespace Harpia

open Text Reflection

variable {n : Nat}

section Same

variable (P : Pool n) (marked : Fin n → Field n → Bool)

/-- The entry type of a map has no markers of its own. -/
def carriesPhi (t : Fin n) (f : Field n) : Bool := !(P.desc t).mapEntry && marked t f

mutual

/-- Two messages of a type that differ at most in what their `phi` fields hold. -/
def SameFields (t : Fin n) : List (Field n) → List (List Value) → List (List Value) → Prop
  | _, [], [] => True
  | f :: fields, slot :: slots, slot' :: slots' =>
    (if carriesPhi P marked t f then f.repeated = false → (slot = [] ↔ slot' = [])
      else SameItems f.type slot slot') ∧ SameFields t fields slots slots'
  | _, _, _ => False

def SameItems (ty : CppType n) : List Value → List Value → Prop
  | [], [] => True
  | v :: vs, v' :: vs' => SameValue ty v v' ∧ SameItems ty vs vs'
  | _, _ => False

def SameValue (ty : CppType n) : Value → Value → Prop
  | .scalar x, .scalar x' => x = x'
  | .message slots, .message slots' =>
    match ty.messageType? with
    | some s => SameFields s (P.desc s).fields slots slots'
    | none => False
  | _, _ => False

end

/-- What two messages hold of a field: of a singular `phi` field, whether it is set. -/
def SameSlot (t : Fin n) (f : Field n) (slot slot' : List Value) : Prop :=
  if carriesPhi P marked t f then f.repeated = false → (slot = [] ↔ slot' = [])
  else SameItems P marked f.type slot slot'

def SameButPhi (t : Fin n) (m m' : Slots) : Prop :=
  SameFields P marked t (P.desc t).fields m m'

end Same

variable {P : Pool n} {marked : Fin n → Field n → Bool}

theorem sameItems_nil_iff {ty : CppType n} {vs vs' : List Value}
    (h : SameItems P marked ty vs vs') : vs = [] ↔ vs' = [] := by
  cases vs <;> cases vs' <;> simp_all [SameItems]

theorem sameItems_scalarOf {f : Field n} {vs vs' : List Value}
    (h : SameItems P marked f.type vs vs') : scalarOf f vs = scalarOf f vs' := by
  cases vs with
  | nil =>
    have empty : vs' = [] := (sameItems_nil_iff h).mp rfl
    rw [empty]
  | cons v vs =>
    cases vs' with
    | nil => exact absurd h (by simp [SameItems])
    | cons v' vs' =>
      cases v <;> cases v' <;> simp_all [SameItems, SameValue, scalarOf]

theorem sameItems_cons {ty : CppType n} {v : Value} {vs ws : List Value}
    (h : SameItems P marked ty (v :: vs) ws) :
    ∃ v' vs', ws = v' :: vs' ∧ SameValue P marked ty v v' ∧ SameItems P marked ty vs vs' := by
  cases ws with
  | nil => exact absurd h (by simp [SameItems])
  | cons v' vs' =>
    rw [SameItems] at h
    exact ⟨v', vs', rfl, h.1, h.2⟩

theorem sameFields_cons {t : Fin n} {fields : List (Field n)} {slot : List Value}
    {slots slots' : List (List Value)} (h : SameFields P marked t fields (slot :: slots) slots') :
    ∃ f fs slot' rest, fields = f :: fs ∧ slots' = slot' :: rest ∧ SameSlot P marked t f slot slot' ∧
      SameFields P marked t fs slots rest := by
  cases fields with
  | nil => exact absurd h (by simp [SameFields])
  | cons f fs =>
    cases slots' with
    | nil => exact absurd h (by simp [SameFields])
    | cons slot' rest =>
      rw [SameFields] at h
      exact ⟨f, fs, slot', rest, rfl, rfl, h.1, h.2⟩

theorem sameFields_nil {t : Fin n} {fields : List (Field n)} {slots' : List (List Value)}
    (h : SameFields P marked t fields [] slots') : slots' = [] := by
  cases slots' with
  | nil => rfl
  | cons _ _ => exact absurd h (by simp [SameFields])

theorem sameValue_scalar {ty : CppType n} {x : Scalar} {v' : Value}
    (h : SameValue P marked ty (.scalar x) v') : v' = .scalar x := by
  cases v' with
  | scalar x' =>
    rw [SameValue] at h
    rw [h]
  | message slots' => exact absurd h (by simp [SameValue])

theorem sameValue_message {ty : CppType n} {slots : List (List Value)} {v' : Value}
    (h : SameValue P marked ty (.message slots) v') :
    ∃ s slots', ty.messageType? = some s ∧ v' = .message slots' ∧
      SameFields P marked s (P.desc s).fields slots slots' := by
  cases v' with
  | scalar x' => exact absurd h (by simp [SameValue])
  | message slots' =>
    rw [SameValue] at h
    cases hs : ty.messageType? with
    | none => simp [hs] at h
    | some s =>
      simp only [hs] at h
      exact ⟨s, slots', rfl, rfl, h⟩

/-- A field is printed for both messages or for neither. -/
theorem same_visible {t : Fin n} {f : Field n} {slot slot' : List Value}
    (h : SameSlot P marked t f slot slot') : visible f slot = visible f slot' := by
  have empty : f.repeated = false → (slot = [] ↔ slot' = []) := by
    unfold SameSlot at h
    split at h
    · exact h
    · exact fun _ => sameItems_nil_iff h
  cases hr : f.repeated with
  | true => simp [visible, hr]
  | false =>
    have same : slot.isEmpty = slot'.isEmpty := by
      rw [Bool.eq_iff_iff, List.isEmpty_iff, List.isEmpty_iff]
      exact empty hr
    simp [visible, same]

section Walk

variable (P marked)
variable (F : FloatText) (redact : Redacts) (fmt : Format)

/-- The walk prints a value, also as the entry of a map, as it prints any that is the same but
for its `phi` fields. -/
structure WalksSame (v : Value) : Prop where
  value : ∀ v' indent ty, SameValue P marked ty v v' →
    walkValue F P redact fmt indent ty v = walkValue F P redact fmt indent ty v'
  entry : ∀ v' indent first f, P.isMap f → SameValue P marked f.type v v' →
    walkEntry F P redact fmt indent first f v = walkEntry F P redact fmt indent first f v'

variable {P marked F redact fmt}

theorem walkItems_same {vs vs' : List Value} (ih : ∀ v ∈ vs, WalksSame P marked F redact fmt v)
    (indent : Nat) (f : Field n) (h : SameItems P marked f.type vs vs') :
    walkItems F P redact fmt indent f vs = walkItems F P redact fmt indent f vs' := by
  induction vs generalizing vs' with
  | nil => rw [(sameItems_nil_iff h).mp rfl]
  | cons v vs rest =>
    obtain ⟨v', vs', rfl, hv, hvs⟩ := sameItems_cons h
    obtain ⟨here, below⟩ := List.forall_mem_cons.mp ih
    rw [walkItems, walkItems, here.value v' _ _ hv, rest below hvs]

theorem walkEntries_same {vs vs' : List Value} (ih : ∀ v ∈ vs, WalksSame P marked F redact fmt v)
    (indent : Nat) {f : Field n} (hm : P.isMap f) (h : SameItems P marked f.type vs vs') :
    walkEntries F P redact fmt indent f vs = walkEntries F P redact fmt indent f vs' := by
  induction vs generalizing vs' with
  | nil => rw [(sameItems_nil_iff h).mp rfl]
  | cons v vs rest =>
    obtain ⟨v', vs', rfl, hv, hvs⟩ := sameItems_cons h
    obtain ⟨here, below⟩ := List.forall_mem_cons.mp ih
    rw [walkEntries, walkEntries, here.entry v' _ _ _ hm hv, rest below hvs]

theorem walkField_same {t : Fin n} {f : Field n} {slot slot' : List Value}
    (hidden : carriesPhi P marked t f → redact (P.desc t).name f.name)
    (ih : ∀ v ∈ slot, WalksSame P marked F redact fmt v) (indent : Nat)
    (h : SameSlot P marked t f slot slot') :
    walkField F P redact fmt t indent f slot = walkField F P redact fmt t indent f slot' := by
  by_cases hr : redact (P.desc t).name f.name
  · cases slot <;> cases slot' <;> simp [walkField, hr]
  · have plain : ¬ carriesPhi P marked t f := fun hc => hr (hidden hc)
    rw [SameSlot, if_neg plain] at h
    cases slot with
    | nil => rw [(sameItems_nil_iff h).mp rfl]
    | cons v vs =>
      obtain ⟨v', vs', rfl, hv, hvs⟩ := sameItems_cons h
      obtain ⟨here, below⟩ := List.forall_mem_cons.mp ih
      by_cases hm : P.isMap f
      · simp only [walkField, hr, hm, ↓reduceIte, Bool.false_eq_true, here.entry v' _ _ _ hm hv,
          walkEntries_same below indent hm hvs]
      · simp only [walkField, hr, hm, Bool.false_eq_true, ↓reduceIte, here.value v' _ _ hv,
          walkItems_same below indent f hvs]

theorem walkFields_same {t : Fin n} (fields : List (Field n))
    (hidden : ∀ f ∈ fields, carriesPhi P marked t f → redact (P.desc t).name f.name)
    {slots slots' : List (List Value)}
    (ih : ∀ slot ∈ slots, ∀ v ∈ slot, WalksSame P marked F redact fmt v) (indent : Nat) (first : Bool)
    (h : SameFields P marked t fields slots slots') :
    walkFields F P redact fmt t indent first fields slots =
      walkFields F P redact fmt t indent first fields slots' := by
  induction slots generalizing fields slots' first with
  | nil => rw [sameFields_nil h]
  | cons slot slots rest =>
    obtain ⟨f, fields, slot', slots', rfl, rfl, hs, hrest⟩ := sameFields_cons h
    obtain ⟨here, below⟩ := List.forall_mem_cons.mp ih
    obtain ⟨hf, hfields⟩ := List.forall_mem_cons.mp hidden
    simp only [walkFields, same_visible hs, walkField_same hf here indent hs,
      rest fields hfields below _ hrest]

theorem walkEntryValue_same {vs vs' : List Value}
    (ih : ∀ v ∈ vs, WalksSame P marked F redact fmt v) (indent : Nat) (vf : Field n)
    (h : SameItems P marked vf.type vs vs') :
    walkEntryValue F P redact fmt indent vf vs = walkEntryValue F P redact fmt indent vf vs' := by
  cases vs with
  | nil => rw [(sameItems_nil_iff h).mp rfl]
  | cons v vs =>
    obtain ⟨v', vs', rfl, hv, -⟩ := sameItems_cons h
    exact (ih v List.mem_cons_self).value v' indent vf.type hv

theorem walkEntry_same {slots : List (List Value)} {v' : Value}
    (ih : ∀ slot ∈ slots, ∀ v ∈ slot, WalksSame P marked F redact fmt v) (indent : Nat)
    (first : Bool) {f : Field n} (hm : P.isMap f)
    (h : SameValue P marked f.type (.message slots) v') :
    walkEntry F P redact fmt indent first f (.message slots) =
      walkEntry F P redact fmt indent first f v' := by
  obtain ⟨s, slots', hs, rfl, same⟩ := sameValue_message h
  obtain ⟨hentry, kf, vf, hfields, -⟩ := Pool.isMap_fields hm hs
  have plain : ∀ {g slot slot'}, SameSlot P marked s g slot slot' →
      SameItems P marked g.type slot slot' := by
    intro g slot slot' hslot
    rwa [SameSlot, if_neg (by simp [carriesPhi, hentry])] at hslot
  rw [hfields] at same
  -- the two entries have a key and a value each, or neither is an entry at all
  match slots, slots', same with
  | [], slots', same => rw [sameFields_nil same]
  | [key], slots', same =>
    obtain ⟨_, _, key', rest, -, rfl, -, same⟩ := sameFields_cons same
    rw [sameFields_nil same]
    rfl
  | key :: value :: tail, slots', same =>
    obtain ⟨_, _, key', rest, hk, rfl, hkey, same⟩ := sameFields_cons same
    obtain ⟨rfl, rfl⟩ := List.cons.inj hk
    obtain ⟨_, _, value', rest, hv, rfl, hvalue, same⟩ := sameFields_cons same
    obtain ⟨rfl, rfl⟩ := List.cons.inj hv
    cases tail with
    | cons _ _ => exact absurd same (by simp [SameFields])
    | nil =>
      obtain rfl := sameFields_nil same
      have below := ih value (List.mem_cons_of_mem _ List.mem_cons_self)
      simp only [walkEntry, hs, Option.map_some, hfields, sameItems_scalarOf (plain hkey),
        walkEntryValue_same below _ _ (plain hvalue)]

/-- A walk that redacts every field with the marker prints nothing that depends on one. -/
theorem walksSame (hidden : ∀ t, ∀ f ∈ (P.desc t).fields, carriesPhi P marked t f →
    redact (P.desc t).name f.name) (v : Value) : WalksSame P marked F redact fmt v := by
  induction v using Value.induct with
  | scalar x =>
    constructor
    · intro v' indent ty h
      rw [sameValue_scalar h]
    · intro v' indent first f _ h
      rw [sameValue_scalar h]
  | message slots ih =>
    constructor
    · intro v' indent ty h
      obtain ⟨s, slots', hs, rfl, same⟩ := sameValue_message h
      simp only [walkValue, hs]
      rw [walkFields_same (P.desc s).fields (hidden s) ih indent true same]
    · exact fun v' indent first f hm h => walkEntry_same ih indent first hm h

end Walk

section Search

variable (P) (pairs : List (List Char × List Char))

def unseen (seen : List (Fin n)) : Nat := (Finset.univ \ seen.toFinset).card

/-- No field of a type is listed, and every type it refers to has been seen. -/
def CleanIn (seen : List (Fin n)) (t : Fin n) (fields : List (Field n)) : Prop :=
  ∀ f ∈ fields, isPhi pairs (P.desc t).name f.name = false ∧
    ∀ s, f.type.messageType? = some s → s ∈ seen

/-- What a search that found nothing leaves behind. -/
structure Explored (seen seen' : List (Fin n)) : Prop where
  grows : seen ⊆ seen'
  clean : ∀ t ∈ seen', t ∉ seen → CleanIn P pairs seen' t (P.desc t).fields

variable {P pairs}

theorem CleanIn.mono {seen seen' : List (Fin n)} {t : Fin n} {fields : List (Field n)}
    (h : CleanIn P pairs seen t fields) (grows : seen ⊆ seen') : CleanIn P pairs seen' t fields :=
  fun f hf => ⟨(h f hf).1, fun s hs => grows ((h f hf).2 s hs)⟩

theorem Explored.refl (seen : List (Fin n)) : Explored P pairs seen seen :=
  ⟨fun _ h => h, fun _ h hn => absurd h hn⟩

theorem Explored.trans {a b c : List (Fin n)} (h : Explored P pairs a b)
    (h' : Explored P pairs b c) : Explored P pairs a c := by
  refine ⟨fun t ht => h'.grows (h.grows ht), fun t ht hn => ?_⟩
  by_cases hb : t ∈ b
  · exact (h.clean t hb hn).mono h'.grows
  · exact h'.clean t ht hb

theorem unseen_anti {seen seen' : List (Fin n)} (h : seen ⊆ seen') : unseen seen' ≤ unseen seen := by
  refine Finset.card_le_card fun t ht => ?_
  simp only [Finset.mem_sdiff, Finset.mem_univ, true_and, List.mem_toFinset] at ht ⊢
  exact fun hs => ht (h hs)

theorem unseen_snoc {seen : List (Fin n)} {t : Fin n} (h : t ∉ seen) :
    unseen (seen ++ [t]) < unseen seen := by
  refine Finset.card_lt_card (Finset.ssubset_iff_subset_ne.mpr ⟨fun u hu => ?_, fun he => ?_⟩)
  · simp only [Finset.mem_sdiff, Finset.mem_univ, true_and, List.mem_toFinset, List.mem_append,
      not_or] at hu ⊢
    exact hu.1
  · have gone : t ∉ Finset.univ \ (seen ++ [t]).toFinset := by simp
    rw [he] at gone
    simp [h] at gone

theorem mem_of_unseen_eq_zero {seen : List (Fin n)} (h : unseen seen = 0) (t : Fin n) :
    t ∈ seen := by
  by_contra hn
  have some : t ∈ Finset.univ \ seen.toFinset := by simp [hn]
  rw [Finset.card_eq_zero.mp h] at some
  exact absurd some (Finset.notMem_empty t)

theorem anyPhi_explored {visit : Fin n → List (Fin n) → Bool × List (Fin n)} {bound : Nat}
    (hv : ∀ s seen seen', unseen seen ≤ bound → visit s seen = (false, seen') →
      Explored P pairs seen seen' ∧ s ∈ seen')
    (t : Fin n) (fields : List (Field n)) {seen seen' : List (Fin n)}
    (hb : unseen seen ≤ bound) (h : anyPhi pairs (P.desc t).name visit fields seen = (false, seen')) :
    Explored P pairs seen seen' ∧ CleanIn P pairs seen' t fields := by
  induction fields generalizing seen with
  | nil =>
    simp only [anyPhi, Prod.mk.injEq, true_and] at h
    subst h
    exact ⟨Explored.refl seen, fun _ hf => absurd hf List.not_mem_nil⟩
  | cons f fields ih =>
    rw [anyPhi] at h
    split at h
    · simp at h
    next hf =>
      rw [Bool.not_eq_true] at hf
      split at h
      next hs =>
        obtain ⟨explored, clean⟩ := ih hb h
        exact ⟨explored, List.forall_mem_cons.mpr ⟨⟨hf, by simp [hs]⟩, clean⟩⟩
      next s hs =>
        split at h
        · simp at h
        next mid hvisit =>
          obtain ⟨first, hmem⟩ := hv s seen mid hb hvisit
          obtain ⟨explored, clean⟩ := ih ((unseen_anti first.grows).trans hb) h
          refine ⟨first.trans explored, List.forall_mem_cons.mpr ⟨⟨hf, ?_⟩, clean⟩⟩
          intro s' hs'
          obtain rfl : s = s' := Option.some.inj (hs.symm.trans hs')
          exact explored.grows hmem

theorem treeHasPhiFrom_explored {bound : Nat} {t : Fin n} {seen seen' : List (Fin n)}
    (hb : unseen seen ≤ bound) (h : treeHasPhiFrom P pairs bound t seen = (false, seen')) :
    Explored P pairs seen seen' ∧ t ∈ seen' := by
  induction bound generalizing t seen seen' with
  | zero =>
    have all := mem_of_unseen_eq_zero (Nat.le_zero.mp hb) t
    simp only [treeHasPhiFrom, Prod.mk.injEq, true_and] at h
    subst h
    exact ⟨Explored.refl seen, all⟩
  | succ bound ih =>
    rw [treeHasPhiFrom] at h
    split at h
    next hmem =>
      simp only [Prod.mk.injEq, true_and] at h
      subst h
      exact ⟨Explored.refl seen, hmem⟩
    next hnew =>
      have less : unseen (seen ++ [t]) ≤ bound := by
        have := unseen_snoc hnew
        omega
      obtain ⟨explored, clean⟩ := anyPhi_explored (fun s a b ha hvisit => ih ha hvisit) t
        (P.desc t).fields less h
      have hmem : t ∈ seen' := explored.grows (by simp)
      refine ⟨⟨fun u hu => explored.grows (List.mem_append_left _ hu), fun u hu hn => ?_⟩, hmem⟩
      by_cases ht : u = t
      · rw [ht]
        exact clean
      · exact explored.clean u hu (by simp [hn, ht])

/-- Types that refer only to one another, none of which lists a `phi` field. -/
theorem treeHasPhi_eq_false {t : Fin n} (h : treeHasPhi P pairs t = false) :
    ∃ types : List (Fin n), t ∈ types ∧ ∀ u ∈ types, CleanIn P pairs types u (P.desc u).fields := by
  have bound : unseen ([] : List (Fin n)) ≤ n := by simp [unseen]
  obtain ⟨explored, hmem⟩ := treeHasPhiFrom_explored bound (Prod.ext h rfl)
  exact ⟨_, hmem, fun u hu => explored.clean u hu List.not_mem_nil⟩

end Search

section Equal

variable {types : List (Fin n)}

theorem sameItems_eq {vs vs' : List Value} (ty : CppType n)
    (ih : ∀ v ∈ vs, ∀ v', SameValue P marked ty v v' → v' = v)
    (h : SameItems P marked ty vs vs') : vs' = vs := by
  induction vs generalizing vs' with
  | nil => exact (sameItems_nil_iff h).mp rfl
  | cons v vs rest =>
    obtain ⟨v', vs', rfl, hv, hvs⟩ := sameItems_cons h
    obtain ⟨here, below⟩ := List.forall_mem_cons.mp ih
    rw [here v' hv, rest below hvs]

theorem sameFields_eq {t : Fin n} {fields : List (Field n)} {slots slots' : List (List Value)}
    (plain : ∀ f ∈ fields, carriesPhi P marked t f = false)
    (ih : ∀ slot ∈ slots, ∀ v ∈ slot, ∀ f ∈ fields, ∀ v', SameValue P marked f.type v v' → v' = v)
    (h : SameFields P marked t fields slots slots') : slots' = slots := by
  induction slots generalizing fields slots' with
  | nil => exact sameFields_nil h
  | cons slot slots rest =>
    obtain ⟨f, fields, slot', slots', rfl, rfl, hs, hrest⟩ := sameFields_cons h
    obtain ⟨hf, hfields⟩ := List.forall_mem_cons.mp plain
    obtain ⟨here, below⟩ := List.forall_mem_cons.mp ih
    rw [SameSlot, if_neg (by simp [hf])] at hs
    have one := sameItems_eq f.type (fun v hv => here v hv f List.mem_cons_self) hs
    have more := rest hfields
      (fun s hs v hv g hg => below s hs v hv g (List.mem_cons_of_mem f hg)) hrest
    rw [one, more]

/-- Below types without markers, values that are the same but for `phi` fields are equal. -/
theorem sameValue_eq (closed : ∀ u ∈ types, ∀ f ∈ (P.desc u).fields,
      carriesPhi P marked u f = false ∧ ∀ s, f.type.messageType? = some s → s ∈ types)
    (v : Value) : ∀ v' ty, (∀ s, ty.messageType? = some s → s ∈ types) →
      SameValue P marked ty v v' → v' = v := by
  induction v using Value.induct with
  | scalar x => exact fun v' ty _ h => sameValue_scalar h
  | message slots ih =>
    intro v' ty hty h
    obtain ⟨s, slots', hs, rfl, same⟩ := sameValue_message h
    have fields := closed s (hty s hs)
    rw [sameFields_eq (fun f hf => (fields f hf).1)
      (fun slot hslot v hv f hf v' => ih slot hslot v hv v' f.type (fields f hf).2) same]

theorem sameButPhi_eq (closed : ∀ u ∈ types, ∀ f ∈ (P.desc u).fields,
      carriesPhi P marked u f = false ∧ ∀ s, f.type.messageType? = some s → s ∈ types)
    {t : Fin n} (ht : t ∈ types) {m m' : Slots} (h : SameButPhi P marked t m m') : m' = m := by
  have fields := closed t ht
  exact sameFields_eq (fun f hf => (fields f hf).1)
    (fun _ _ v _ f hf v' => sameValue_eq closed v v' f.type (fields f hf).2) h

end Equal

theorem isPhi_of_carriesPhi {t : Fin n} {f : Field n} (hf : f ∈ (P.desc t).fields)
    (h : carriesPhi P marked t f) : isPhi (phiPairs P marked) (P.desc t).name f.name := by
  simp only [carriesPhi, Bool.and_eq_true, Bool.not_eq_true'] at h
  simp only [isPhi, decide_eq_true_eq, phiPairs, List.mem_flatMap, List.mem_finRange, true_and]
  refine ⟨t, ?_⟩
  rw [if_neg (by simp [h.1])]
  exact List.mem_map.mpr ⟨f, List.mem_filter.mpr ⟨hf, h.2⟩, rfl⟩

/-- While redaction is on, no text depends on what a `phi` field holds. -/
theorem toString_eq_of_sameButPhi (F : FloatText) (P : Pool n) (marked : Fin n → Field n → Bool)
    (toJson : Lang → Fin n → Slots → List Char) (lang : Lang) (fmt : Format) (t : Fin n)
    (m m' : Slots) (h : SameButPhi P marked t m m') :
    toString F P toJson lang true (phiPairs P marked) fmt t m =
      toString F P toJson lang true (phiPairs P marked) fmt t m' := by
  cases hphi : treeHasPhi P (phiPairs P marked) t with
  | true =>
    have hidden : ∀ t, ∀ f ∈ (P.desc t).fields, carriesPhi P marked t f →
        shouldRedact true (phiPairs P marked) (P.desc t).name f.name :=
      fun t f hf hc => by simpa [shouldRedact] using isPhi_of_carriesPhi hf hc
    have values : ∀ v, WalksSame P marked F (shouldRedact true (phiPairs P marked)) fmt v :=
      walksSame hidden
    have walk := walkFields_same (P.desc t).fields (hidden t) (fun _ _ v _ => values v) 0 true h
    simp only [toString, hphi, Bool.and_self, ↓reduceIte, redactedToString, walk]
  | false =>
    obtain ⟨types, ht, clean⟩ := treeHasPhi_eq_false hphi
    have closed : ∀ u ∈ types, ∀ f ∈ (P.desc u).fields,
        carriesPhi P marked u f = false ∧ ∀ s, f.type.messageType? = some s → s ∈ types := by
      intro u hu f hf
      refine ⟨?_, (clean u hu f hf).2⟩
      by_contra hc
      rw [Bool.not_eq_false] at hc
      have listed := isPhi_of_carriesPhi hf hc
      rw [(clean u hu f hf).1] at listed
      exact absurd listed (by decide)
    rw [sameButPhi_eq closed ht h]

/-- A patient's name is a `phi` field, and a patient may refer to another. -/
def patientPool : Pool 1 where
  desc _ :=
    { name := ['p', 'a', 't', 'i', 'e', 'n', 't']
      fields := [{ name := ['i', 'd'], type := .int64 }, { name := ['n'], type := .string },
        { name := ['n', 'e', 'x', 't'], type := .message 0, presence := true }] }
  names_word := by decide
  names_nodup := by decide
  presence_repeated := by decide
  presence_message := by decide
  entry := by decide
  map_repeated := by decide

def patient (name : List Char) (next : List Value) : Slots :=
  [[.scalar (.int 7)], [.scalar (.text name)], next]

def noJson : Lang → Fin 1 → Slots → List Char := fun _ _ _ => ['{', '}']

theorem toString_eq_patients :
    toString zeroFloats patientPool noJson .cpp true
        (phiPairs patientPool fun _ f => f.name = ['n']) .yaml 0
        (patient ['a', 'n', 'n'] [.message (patient ['b', 'o', 'b'] [])]) =
      toString zeroFloats patientPool noJson .cpp true
        (phiPairs patientPool fun _ f => f.name = ['n']) .yaml 0
        (patient [] [.message (patient ['e', 'v', 'a'] [])]) := by
  refine toString_eq_of_sameButPhi zeroFloats patientPool _ noJson .cpp .yaml 0 _ _ ?_
  simp [SameButPhi, SameFields, SameItems, SameValue, carriesPhi, patientPool, patient,
    CppType.messageType?]

section Order

variable (P : Pool n)

/-- The entries of a message's own maps come in another order. -/
def Reordered : List (Field n) → Slots → Slots → Prop
  | [], [], [] => True
  | f :: fields, slot :: slots, slot' :: slots' =>
    (if P.isMap f then slot.Perm slot' else slot = slot') ∧ Reordered fields slots slots'
  | _, _, _ => False

/-- Two messages that are equal but for what their `phi` fields hold; a map is its entries, in
whatever order they are stored. -/
def EqualButPhi (marked : Fin n → Field n → Bool) (t : Fin n) (m m' : Slots) : Prop :=
  ∃ stored, Reordered P (P.desc t).fields m stored ∧ SameButPhi P marked t stored m'

end Order

/-- Patients with notes, by number. -/
def notesPool : Pool 2 where
  desc t :=
    if t.val = 0 then
      { name := ['p', 'a', 't', 'i', 'e', 'n', 't']
        fields := [{ name := ['i', 'd'], type := .int64 }, { name := ['n'], type := .string },
          { name := ['n', 'o', 't', 'e', 's'], type := .message ⟨1, Nat.one_lt_two⟩, repeated := true }] }
    else
      { name := ['E']
        fields := [{ name := ['k', 'e', 'y'], type := .int32 },
          { name := ['v', 'a', 'l', 'u', 'e'], type := .string }]
        mapEntry := true }
  names_word := by decide
  names_nodup := by decide
  presence_repeated := by decide
  presence_message := by decide
  entry := by decide
  map_repeated := by decide

def noteEntry (key : Int) : Value := .message [[.scalar (.int key)], [.scalar (.text ['x'])]]

def notedPatient (notes : List Value) : Slots :=
  [[.scalar (.int 7)], [.scalar (.text ['a', 'n', 'n'])], notes]

/-- A map is printed in the order in which its entries are stored. -/
theorem not_toString_eq_of_equalButPhi :
    ¬ ∀ (n : Nat) (F : FloatText) (P : Pool n) (marked : Fin n → Field n → Bool)
      (toJson : Lang → Fin n → Slots → List Char) (lang : Lang) (fmt : Format) (t : Fin n)
      (m m' : Slots), EqualButPhi P marked t m m' →
        toString F P toJson lang true (phiPairs P marked) fmt t m =
          toString F P toJson lang true (phiPairs P marked) fmt t m' := by
  intro h
  have equal : EqualButPhi notesPool (fun _ f => f.name = ['n']) 0 (notedPatient [noteEntry 1, noteEntry 2])
      (notedPatient [noteEntry 2, noteEntry 1]) := by
    refine ⟨notedPatient [noteEntry 2, noteEntry 1], ⟨rfl, rfl, List.Perm.swap _ _ _, trivial⟩, ?_⟩
    simp [SameButPhi, SameFields, SameItems, SameValue, carriesPhi, notesPool, notedPatient, noteEntry,
      CppType.messageType?]
  have same := h 2 zeroFloats notesPool (fun _ f => f.name = ['n']) (fun _ _ _ => []) .cpp .yaml 0 _ _
    equal
  revert same
  decide +kernel

end Harpia
