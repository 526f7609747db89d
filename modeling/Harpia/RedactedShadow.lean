import Harpia.Redaction
import Harpia.XmlRoundTrip

namespace Harpia

open Text Reflection

variable {n : Nat}

section Recast

variable (P : Pool n) (pairs : List (List Char × List Char))

/-- A `phi` field: the registry lists it. The entry type of a map has none. -/
def hides (t : Fin n) (f : Field n) : Bool :=
  !(P.desc t).mapEntry && isPhi pairs (P.desc t).name f.name

section

variable (fill : Field n → List Value → List Value) (scalar : CppType n → Scalar → Scalar)

mutual

/-- A message with each `phi` field filled in anew and every other scalar rewritten. -/
def recastFields (t : Fin n) : List (Field n) → List (List Value) → List (List Value)
  | _, [] => []
  | [], _ :: _ => []
  | f :: fields, slot :: slots =>
    (if hides P pairs t f then fill f slot else recastItems f.type slot) ::
      recastFields t fields slots

def recastItems (ty : CppType n) : List Value → List Value
  | [] => []
  | v :: vs => recastValue ty v :: recastItems ty vs

def recastValue (ty : CppType n) : Value → Value
  | .scalar x => .scalar (scalar ty x)
  | .message slots =>
    match ty.messageType? with
    | some s => .message (recastFields s (P.desc s).fields slots)
    | none => .message slots

end

end

/-- A message with every `phi` field as in a new message, and all else as it is. -/
def clearPhi (t : Fin n) (m : Slots) : Slots :=
  recastFields P pairs (fun f _ => f.initial) (fun _ x => x) t (P.desc t).fields m

mutual

/-- Every `phi` field of a message, at any depth, meets a condition. -/
def phiAll (p : Field n → List Value → Bool) (t : Fin n) :
    List (Field n) → List (List Value) → Bool
  | _, [] => true
  | [], _ :: _ => true
  | f :: fields, slot :: slots =>
    (if hides P pairs t f then p f slot else phiItems p f.type slot) && phiAll p t fields slots

def phiItems (p : Field n → List Value → Bool) (ty : CppType n) : List Value → Bool
  | [] => true
  | v :: vs => phiValue p ty v && phiItems p ty vs

def phiValue (p : Field n → List Value → Bool) (ty : CppType n) : Value → Bool
  | .scalar _ => true
  | .message slots =>
    match ty.messageType? with
    | some s => phiAll p s (P.desc s).fields slots
    | none => true

end

end Recast

section Recasting

variable {P : Pool n} {pairs : List (List Char × List Char)}
  {fill fill' : Field n → List Value → List Value} {scalar scalar' : CppType n → Scalar → Scalar}

theorem recastItems_eq_map (ty : CppType n) (vs : List Value) :
    recastItems P pairs fill scalar ty vs = vs.map (recastValue P pairs fill scalar ty) := by
  induction vs with
  | nil => rfl
  | cons v vs ih => rw [recastItems, ih, List.map_cons]

theorem hides_entry {t : Fin n} (h : (P.desc t).mapEntry) (f : Field n) :
    hides P pairs t f = false := by
  simp [hides, h]

theorem hides_message {t : Fin n} (h : (P.desc t).mapEntry = false) (f : Field n) :
    hides P pairs t f = isPhi pairs (P.desc t).name f.name := by
  simp [hides, h]

/-- An entry of a map keeps its shape. -/
theorem recastValue_entry {ty : CppType n} {s : Fin n} {kf vf : Field n} (hs : ty.messageType? = some s)
    (entry : (P.desc s).mapEntry) (hfields : (P.desc s).fields = [kf, vf]) (k : Scalar) (w : Value) :
    recastValue P pairs fill scalar ty (.message [[.scalar k], [w]]) =
      .message [[.scalar (scalar kf.type k)], [recastValue P pairs fill scalar vf.type w]] := by
  simp [recastValue, hs, hfields, recastFields, hides_entry entry, recastItems]

theorem recast_entryKey {f : Field n} (hm : P.isMap f) {v : Value} (typed : TypedValue P f.type v) :
    entryKey (recastValue P pairs fill (fun _ x => x) f.type v) = entryKey v := by
  obtain ⟨s, kf, vf, k, w, hs, hfields, rfl, -⟩ := typed_entry hm typed
  rw [recastValue_entry hs (Pool.isMap_fields hm hs).1 hfields]
  rfl

variable (P pairs fill fill' scalar scalar') in
/-- Texts of one kind in one recast of a value are so in another. -/
def TextsKept (p : List Char → Bool) (v : Value) : Prop :=
  ∀ ty, TypedValue P ty v → valueAll p (recastValue P pairs fill scalar ty v) →
    valueAll p (recastValue P pairs fill' scalar' ty v)

theorem recastItems_texts {p : List Char → Bool} {ty : CppType n} {vs : List Value}
    (ih : ∀ v ∈ vs, TextsKept P pairs fill fill' scalar scalar' p v) (typed : TypedItems P ty vs)
    (h : itemsAll p (recastItems P pairs fill scalar ty vs)) :
    itemsAll p (recastItems P pairs fill' scalar' ty vs) := by
  induction vs with
  | nil => rfl
  | cons v vs rest =>
    obtain ⟨here, below⟩ := List.forall_mem_cons.mp ih
    rw [TypedItems] at typed
    rw [recastItems, itemsAll, Bool.and_eq_true] at h ⊢
    exact ⟨here ty typed.1 h.1, rest below typed.2 h.2⟩

theorem recastFields_texts {p : List Char → Bool}
    (filled : ∀ f slot, itemsAll p (fill f slot) → itemsAll p (fill' f slot)) {t : Fin n}
    (fields : List (Field n)) {slots : List (List Value)}
    (ih : ∀ slot ∈ slots, ∀ v ∈ slot, TextsKept P pairs fill fill' scalar scalar' p v)
    (typed : TypedFields P t fields slots)
    (h : textsAll p (recastFields P pairs fill scalar t fields slots)) :
    textsAll p (recastFields P pairs fill' scalar' t fields slots) := by
  induction slots generalizing fields with
  | nil =>
    rw [recastFields]
    rfl
  | cons slot slots rest =>
    cases fields with
    | nil =>
      rw [recastFields]
      rfl
    | cons f fields =>
      obtain ⟨here, below⟩ := List.forall_mem_cons.mp ih
      rw [TypedFields] at typed
      rw [recastFields, textsAll, Bool.and_eq_true] at h ⊢
      refine ⟨?_, rest fields below typed.2.2 h.2⟩
      by_cases hidden : hides P pairs t f
      · rw [if_pos hidden] at h ⊢
        exact filled f slot h.1
      · rw [if_neg hidden] at h ⊢
        exact recastItems_texts here typed.2.1 h.1

theorem recastValue_texts {p : List Char → Bool}
    (filled : ∀ f slot, itemsAll p (fill f slot) → itemsAll p (fill' f slot))
    (rewritten : ∀ ty x, CanHold ty x → scalarAll p (scalar ty x) → scalarAll p (scalar' ty x))
    (v : Value) : TextsKept P pairs fill fill' scalar scalar' p v := by
  induction v using Value.induct with
  | scalar x =>
    intro ty typed h
    rw [TypedValue] at typed
    rw [recastValue, valueAll] at h ⊢
    exact rewritten ty x typed h
  | message slots ih =>
    intro ty typed h
    obtain ⟨s, hs, fields⟩ := typed_message typed
    simp only [recastValue, hs, valueAll] at h ⊢
    exact recastFields_texts filled _ ih fields h

/-- Texts of one kind in one recast of a message are so in another. -/
theorem recast_texts {p : List Char → Bool}
    (filled : ∀ f slot, itemsAll p (fill f slot) → itemsAll p (fill' f slot))
    (rewritten : ∀ ty x, CanHold ty x → scalarAll p (scalar ty x) → scalarAll p (scalar' ty x))
    {t : Fin n} {m : Slots} (typed : Typed P t m)
    (h : textsAll p (recastFields P pairs fill scalar t (P.desc t).fields m)) :
    textsAll p (recastFields P pairs fill' scalar' t (P.desc t).fields m) :=
  recastFields_texts filled _ (fun _ _ v _ => recastValue_texts filled rewritten v) typed h

section Equal

variable {p : Field n → List Value → Bool}

variable (P pairs fill fill' scalar p) in
/-- Two ways to fill the `phi` fields of a value make the same value exactly if they agree on each
of them. -/
def FilledAlike (v : Value) : Prop :=
  ∀ ty, TypedValue P ty v → (recastValue P pairs fill scalar ty v =
    recastValue P pairs fill' scalar ty v ↔ phiValue P pairs p ty v)

theorem recastItems_eq_iff {ty : CppType n} {vs : List Value}
    (ih : ∀ v ∈ vs, FilledAlike P pairs fill fill' scalar p v) (typed : TypedItems P ty vs) :
    recastItems P pairs fill scalar ty vs = recastItems P pairs fill' scalar ty vs ↔
      phiItems P pairs p ty vs := by
  induction vs with
  | nil => simp [recastItems, phiItems]
  | cons v vs rest =>
    obtain ⟨here, below⟩ := List.forall_mem_cons.mp ih
    rw [TypedItems] at typed
    rw [recastItems, recastItems, phiItems, List.cons.injEq, Bool.and_eq_true, here ty typed.1,
      rest below typed.2]

theorem recastFields_eq_iff {t : Fin n} (fields : List (Field n)) {slots : List (List Value)}
    (alike : ∀ f ∈ fields, ∀ slot, SlotShape P t f slot → TypedItems P f.type slot →
      (fill f slot = fill' f slot ↔ p f slot))
    (ih : ∀ slot ∈ slots, ∀ v ∈ slot, FilledAlike P pairs fill fill' scalar p v)
    (typed : TypedFields P t fields slots) :
    recastFields P pairs fill scalar t fields slots =
      recastFields P pairs fill' scalar t fields slots ↔ phiAll P pairs p t fields slots := by
  induction slots generalizing fields with
  | nil => simp [recastFields, phiAll]
  | cons slot slots rest =>
    cases fields with
    | nil => simp [recastFields, phiAll]
    | cons f fields =>
      obtain ⟨here, below⟩ := List.forall_mem_cons.mp ih
      obtain ⟨hf, hfields⟩ := List.forall_mem_cons.mp alike
      rw [TypedFields] at typed
      rw [recastFields, recastFields, phiAll, List.cons.injEq, Bool.and_eq_true,
        rest fields hfields below typed.2.2]
      by_cases hidden : hides P pairs t f
      · rw [if_pos hidden, if_pos hidden, if_pos hidden, hf slot typed.1 typed.2.1]
      · rw [if_neg hidden, if_neg hidden, if_neg hidden, recastItems_eq_iff here typed.2.1]

theorem recastValue_eq_iff
    (alike : ∀ t, ∀ f ∈ (P.desc t).fields, ∀ slot, SlotShape P t f slot → TypedItems P f.type slot →
      (fill f slot = fill' f slot ↔ p f slot)) (v : Value) :
    FilledAlike P pairs fill fill' scalar p v := by
  induction v using Value.induct with
  | scalar x =>
    intro ty _
    simp [recastValue, phiValue]
  | message slots ih =>
    intro ty typed
    obtain ⟨s, hs, fields⟩ := typed_message typed
    simp only [recastValue, phiValue, hs, Value.message.injEq]
    exact recastFields_eq_iff _ (alike s) ih fields

theorem recast_eq_iff
    (alike : ∀ t, ∀ f ∈ (P.desc t).fields, ∀ slot, SlotShape P t f slot → TypedItems P f.type slot →
      (fill f slot = fill' f slot ↔ p f slot)) {t : Fin n} {m : Slots} (typed : Typed P t m) :
    recastFields P pairs fill scalar t (P.desc t).fields m =
      recastFields P pairs fill' scalar t (P.desc t).fields m ↔
        phiAll P pairs p t (P.desc t).fields m :=
  recastFields_eq_iff _ (alike t) (fun _ _ v _ => recastValue_eq_iff alike v) typed

end Equal

end Recasting

section Shadow

/-- Redaction writes the name of an enum's value as it writes a string. -/
def shadowType : CppType n → CppType n
  | .enum _ => .string
  | ty => ty

def shadowScalar : CppType n → Scalar → Scalar
  | .enum e, .int k => .text (enumName e k)
  | _, x => x

theorem messageType?_shadowType (ty : CppType n) :
    (shadowType ty).messageType? = ty.messageType? := by
  cases ty <;> rfl

theorem shadowType_eq_message {ty : CppType n} {s : Fin n} (h : shadowType ty = .message s) :
    ty = .message s := by
  cases ty <;> simp_all [shadowType]

variable (P : Pool n) (pairs : List (List Char × List Char))

/-- A `phi` field is written as a string field that holds the placeholder. -/
def shadowField (t : Fin n) (f : Field n) : Field n :=
  if hides P pairs t f then { name := f.name, type := .string, presence := f.presence }
  else { f with type := shadowType f.type }

@[simp] theorem shadowField_name (t : Fin n) (f : Field n) :
    (shadowField P pairs t f).name = f.name := by
  unfold shadowField
  split <;> rfl

@[simp] theorem shadowField_presence (t : Fin n) (f : Field n) :
    (shadowField P pairs t f).presence = f.presence := by
  unfold shadowField
  split <;> rfl

variable {P pairs}

theorem shadowField_hidden {t : Fin n} {f : Field n} (h : hides P pairs t f) :
    shadowField P pairs t f = { name := f.name, type := .string, presence := f.presence } :=
  if_pos h

theorem shadowField_plain {t : Fin n} {f : Field n} (h : ¬ hides P pairs t f) :
    shadowField P pairs t f = { f with type := shadowType f.type } :=
  if_neg h

theorem shadowField_repeated {t : Fin n} {f : Field n} (h : (shadowField P pairs t f).repeated) :
    f.repeated := by
  unfold shadowField at h
  split at h
  · simp at h
  · exact h

theorem shadowField_message {t : Fin n} {f : Field n} {s : Fin n}
    (h : (shadowField P pairs t f).type = .message s) :
    f.type = .message s ∧ (shadowField P pairs t f).repeated = f.repeated := by
  unfold shadowField at h ⊢
  split at h
  · simp at h
  next plain => exact ⟨shadowType_eq_message h, by rw [if_neg plain]⟩

variable (P pairs)

/-- The types of which redacted messages are written. -/
def shadowPool : Pool n where
  desc t :=
    { name := (P.desc t).name
      fields := (P.desc t).fields.map (shadowField P pairs t)
      mapEntry := (P.desc t).mapEntry }
  names_word t f hf := by
    obtain ⟨g, hg, rfl⟩ := List.mem_map.mp hf
    rw [shadowField_name]
    exact P.names_word t g hg
  names_nodup t := by
    have same : ((P.desc t).fields.map (shadowField P pairs t)).map Field.name =
        (P.desc t).fields.map Field.name := by simp [Function.comp_def]
    rw [same]
    exact P.names_nodup t
  presence_repeated t f hf many := by
    obtain ⟨g, hg, rfl⟩ := List.mem_map.mp hf
    rw [shadowField_presence]
    exact P.presence_repeated t g hg (shadowField_repeated many)
  presence_message t f hf single message := by
    obtain ⟨g, hg, rfl⟩ := List.mem_map.mp hf
    obtain ⟨s, hs⟩ := Option.isSome_iff_exists.mp message
    obtain ⟨type, label⟩ := shadowField_message (CppType.eq_message hs)
    rw [shadowField_presence]
    exact P.presence_message t g hg (label ▸ single) (by simp [CppType.isMessage, type,
      CppType.messageType?])
  entry t hentry := by
    have shape := P.entry t hentry
    unfold Descriptor.isEntry at shape
    split at shape
    next k v hkv =>
      have field : ∀ g, shadowField P pairs t g = { g with type := shadowType g.type } :=
        fun g => shadowField_plain (by simp [hides_entry hentry])
      simp only [Descriptor.isEntry, hkv, List.map_cons, List.map_nil, field]
      simpa [CppType.isMessage, messageType?_shadowType] using shape
    next => simp at shape
  map_repeated t f hf s type hentry := by
    obtain ⟨g, hg, rfl⟩ := List.mem_map.mp hf
    obtain ⟨type, label⟩ := shadowField_message type
    rw [label]
    exact P.map_repeated t g hg s type hentry

theorem shadowPool_fields (t : Fin n) :
    ((shadowPool P pairs).desc t).fields = (P.desc t).fields.map (shadowField P pairs t) := rfl

/-- What the shadow of a message holds of a `phi` field. -/
def shadowFill (f : Field n) (slot : List Value) : List Value :=
  if visible f slot then [.scalar (.text placeholderText)] else []

/-- The message that redaction writes in the place of another. -/
abbrev shadowFields (t : Fin n) (fields : List (Field n)) (slots : Slots) : Slots :=
  recastFields P pairs shadowFill shadowScalar t fields slots

abbrev shadowItems (ty : CppType n) (vs : List Value) : List Value :=
  recastItems P pairs shadowFill shadowScalar ty vs

abbrev shadowValue (ty : CppType n) (v : Value) : Value :=
  recastValue P pairs shadowFill shadowScalar ty v

variable {P pairs}

theorem canHold_shadow {ty : CppType n} {x : Scalar} (h : CanHold ty x) :
    CanHold (shadowType ty) (shadowScalar ty x) := by
  cases ty <;> cases x <;> simp_all [CanHold, shadowType, shadowScalar]

/-- The value of an enum is known by its name. -/
theorem shadowScalar_inj {ty : CppType n} {x y : Scalar} (hx : CanHold ty x) (hy : CanHold ty y)
    (h : shadowScalar ty x = shadowScalar ty y) : x = y := by
  cases ty with
  | enum e =>
    cases x <;> cases y <;> simp only [CanHold] at hx hy
    next k l =>
      have name : enumName e k = enumName e l := by simpa [shadowScalar] using h
      have first := (find?_enumName hx).1
      rw [name, (find?_enumName hy).1] at first
      rw [(Prod.mk.inj (Option.some.inj first)).2]
  | _ => exact h

theorem isMap_shadow {t : Fin n} {f : Field n} (plain : ¬ hides P pairs t f) :
    (shadowPool P pairs).isMap (shadowField P pairs t f) = P.isMap f := by
  rw [shadowField_plain plain]
  cases hty : f.type <;> simp [Pool.isMap, hty, shadowType, shadowPool]

theorem entryKey_shadow {f : Field n} (hm : P.isMap f) {v w : Value} (hv : TypedValue P f.type v)
    (hw : TypedValue P f.type w)
    (h : entryKey (shadowValue P pairs f.type v) = entryKey (shadowValue P pairs f.type w)) :
    entryKey v = entryKey w := by
  obtain ⟨s, kf, vf, k, a, hs, hfields, rfl, hk, -⟩ := typed_entry hm hv
  obtain ⟨s', kf', vf', l, b, hs', hfields', rfl, hl, -⟩ := typed_entry hm hw
  obtain rfl : s = s' := Option.some.inj (hs.symm.trans hs')
  have entry := (Pool.isMap_fields hm hs).1
  rw [hfields] at hfields'
  obtain ⟨rfl, -⟩ := List.cons.inj hfields'
  rw [shadowValue, shadowValue, recastValue_entry hs entry hfields,
    recastValue_entry hs entry hfields, entryKey_mk, entryKey_mk] at h
  rw [entryKey_mk, entryKey_mk, shadowScalar_inj hk hl (Option.some.inj h)]

theorem typedItems_iff {ty : CppType n} {vs : List Value} :
    TypedItems P ty vs ↔ ∀ v ∈ vs, TypedValue P ty v := by
  induction vs with
  | nil => simp [TypedItems]
  | cons v vs ih => simp [TypedItems, ih]

theorem slotShape_shadow {t : Fin n} {f : Field n} {slot : List Value} (h : SlotShape P t f slot)
    (typed : TypedItems P f.type slot) :
    SlotShape (shadowPool P pairs) t (shadowField P pairs t f)
      (if hides P pairs t f then shadowFill f slot else shadowItems P pairs f.type slot) := by
  by_cases hidden : hides P pairs t f
  · rw [if_pos hidden, shadowField_hidden hidden]
    have message : (P.desc t).mapEntry = false := by
      simp only [hides, Bool.and_eq_true, Bool.not_eq_true'] at hidden
      exact hidden.1
    refine ⟨fun _ => ?_, fun _ empty => ⟨?_, message⟩, fun hm => absurd hm (by simp [Pool.isMap])⟩
    · unfold shadowFill
      split <;> simp
    · by_contra absent
      have always : f.presence = false := by simpa using absent
      simp [shadowFill, visible, always] at empty
  · rw [if_neg hidden]
    have map : shadowItems P pairs f.type slot = slot.map (shadowValue P pairs f.type) :=
      recastItems_eq_map f.type slot
    have label : (shadowField P pairs t f).repeated = f.repeated := by
      rw [shadowField_plain hidden]
    rw [map]
    refine ⟨fun single => ?_, fun single empty => ?_, fun hm => ?_⟩
    · rw [List.length_map]
      exact h.single (label ▸ single)
    · rw [shadowField_presence]
      exact h.unset (label ▸ single) (List.map_eq_nil_iff.mp empty)
    · rw [isMap_shadow hidden] at hm
      have distinct := List.Nodup.of_map _ (h.keys hm)
      rw [List.map_map]
      refine List.Nodup.map_on (fun v hv w hw same => ?_) distinct
      have keys := entryKey_shadow hm (typedItems_iff.mp typed v hv) (typedItems_iff.mp typed w hw) same
      exact List.inj_on_of_nodup_map (h.keys hm) hv hw keys

variable (P pairs) in
/-- The shadow of a value has the shadow of its type. -/
def ShadowTyped (v : Value) : Prop :=
  ∀ ty, TypedValue P ty v → TypedValue (shadowPool P pairs) (shadowType ty) (shadowValue P pairs ty v)

theorem typedItems_shadow {ty : CppType n} {vs : List Value}
    (ih : ∀ v ∈ vs, ShadowTyped P pairs v) (typed : TypedItems P ty vs) :
    TypedItems (shadowPool P pairs) (shadowType ty) (shadowItems P pairs ty vs) := by
  induction vs with
  | nil => simp [shadowItems, recastItems, TypedItems]
  | cons v vs rest =>
    obtain ⟨here, below⟩ := List.forall_mem_cons.mp ih
    rw [TypedItems] at typed
    rw [shadowItems, recastItems, TypedItems]
    exact ⟨here ty typed.1, rest below typed.2⟩

theorem typedFields_shadow {t : Fin n} (fields : List (Field n)) {slots : List (List Value)}
    (ih : ∀ slot ∈ slots, ∀ v ∈ slot, ShadowTyped P pairs v) (typed : TypedFields P t fields slots) :
    TypedFields (shadowPool P pairs) t (fields.map (shadowField P pairs t))
      (shadowFields P pairs t fields slots) := by
  induction slots generalizing fields with
  | nil =>
    cases fields with
    | nil => simp [recastFields, TypedFields]
    | cons f fields => exact absurd typed (by simp [TypedFields])
  | cons slot slots rest =>
    cases fields with
    | nil => exact absurd typed (by simp [TypedFields])
    | cons f fields =>
      obtain ⟨here, below⟩ := List.forall_mem_cons.mp ih
      rw [TypedFields] at typed
      rw [shadowFields, recastFields, List.map_cons, TypedFields]
      refine ⟨slotShape_shadow typed.1 typed.2.1, ?_, rest fields below typed.2.2⟩
      by_cases hidden : hides P pairs t f
      · rw [if_pos hidden, shadowField_hidden hidden]
        unfold shadowFill
        split <;> simp [TypedItems, TypedValue, CanHold]
      · rw [if_neg hidden, shadowField_plain hidden]
        exact typedItems_shadow here typed.2.1

theorem shadowTyped (v : Value) : ShadowTyped P pairs v := by
  induction v using Value.induct with
  | scalar x =>
    intro ty typed
    rw [TypedValue] at typed
    rw [shadowValue, recastValue, TypedValue]
    exact canHold_shadow typed
  | message slots ih =>
    intro ty typed
    obtain ⟨s, hs, fields⟩ := typed_message typed
    simp only [shadowValue, recastValue, hs, TypedValue, messageType?_shadowType]
    exact typedFields_shadow _ ih fields

theorem typed_shadow {t : Fin n} {m : Slots} (typed : Typed P t m) :
    Typed (shadowPool P pairs) t (shadowFields P pairs t (P.desc t).fields m) :=
  typedFields_shadow _ (fun _ _ v _ => shadowTyped v) typed

end Shadow

end Harpia
