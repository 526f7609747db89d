import Harpia.RedactedText
import Harpia.YamlBlocks

namespace Harpia

open Text Reflection

variable {n : Nat}

section Placeholder

variable (F : FloatText) (lang : Lang)

/-- What a field holds after the placeholder was read as its value. -/
def placedText (f : Field n) : List Value :=
  match parseScalar F lang f.type placeholderText with
  | none => f.initial
  | some x => [.scalar x]

/-- What a `phi` field holds after redacted YAML was read: it has a line where it is visible. -/
def yamlFill (f : Field n) (slot : List Value) : List Value :=
  if visible f slot then placedText F lang f else f.initial

/-- A message with its `phi` fields filled in anew. -/
abbrev filledFields (P : Pool n) (pairs : List (List Char × List Char))
    (fill : Field n → List Value → List Value) (t : Fin n) (fields : List (Field n)) (slots : Slots) :
    Slots :=
  recastFields P pairs fill (fun _ x => x) t fields slots

abbrev filledItems (P : Pool n) (pairs : List (List Char × List Char))
    (fill : Field n → List Value → List Value) (ty : CppType n) (vs : List Value) : List Value :=
  recastItems P pairs fill (fun _ x => x) ty vs

theorem inline_placeholder : Inline (quote placeholderText) := .quoted _

theorem store_placeholder (f : Field n) (a b : Slots) :
    ∃ k, storeScalar F lang f a.length (quote placeholderText) f.repeated (a ++ f.initial :: b) =
      .ok (a ++ placedText F lang f :: b, k) := by
  have short : overlong f.type placeholderText = false := overlong_of_length (by decide)
  simp only [storeScalar, unquote_quote, short, Bool.false_eq_true, and_false, ↓reduceIte, placedText]
  cases parseScalar F lang f.type placeholderText with
  | none => exact ⟨0, rfl⟩
  | some x =>
    refine ⟨1, ?_⟩
    by_cases many : f.repeated
    · have unset : f.initial = [] := by simp [Field.initial, many]
      simp [addValue, many, unset, modify_mid, orAbort, Except.map]
    · simp [setValue, many, orAbort, Except.map]

end Placeholder

/-- The registry does not list the field that every message of the generator starts with. -/
def KeysShown (pairs : List (List Char × List Char)) : Prop :=
  ∀ name, isPhi pairs name ['H', 'A', 'R', 'P', 'I', 'A', '_', 'I', 'D'] = false

section Reading

variable (F : FloatText) (P : Pool n) (lang : Lang) (pairs : List (List Char × List Char))

/-- The lines of a message's shadow are read into the message with its `phi` fields filled in, from
any field on. -/
def ShadowReads (v : Value) : Prop :=
  ∀ s slots, v = .message slots → KeyedFrom P s → (P.desc s).mapEntry = false →
    TypedFields P s (P.desc s).fields slots →
    ∀ doneF todoF doneS todoS, (P.desc s).fields = doneF ++ todoF → slots = doneS ++ todoS →
      doneF.length = doneS.length → ∀ done : Slots, doneF.length = done.length → ∀ indent,
      Fills F P lang (.mapping indent s)
        (outlineFields F (shadowPool P pairs) indent (todoF.map (shadowField P pairs s))
          (shadowFields P pairs s todoF todoS))
        (done ++ todoF.map Field.initial)
        (done ++ filledFields P pairs (yamlFill F lang) s todoF todoS)

/-- So are those of a value and of all that it holds. -/
structure ShadowReadsBelow (v : Value) : Prop where
  here : ShadowReads F P lang pairs v
  below : ∀ slots, v = .message slots → ∀ slot ∈ slots, ∀ w ∈ slot, ShadowReads F P lang pairs w

variable {F P lang pairs}

/-- The text of a value's shadow is read as the value. -/
theorem textOf_shadow {ty : CppType n} {x : Scalar} (h : CanHold ty x) :
    TextOf F lang ty (inlineText F (shadowType ty) (shadowScalar ty x)) x := by
  have read : parseScalar F lang ty (unquote (inlineText F (shadowType ty) (shadowScalar ty x))) =
      some x ∧ overlong ty (unquote (inlineText F (shadowType ty) (shadowScalar ty x))) = false := by
    cases ty with
    | enum e =>
      cases x <;> simp only [CanHold] at h
      next k =>
        have text : unquote (inlineText F (shadowType (.enum e : CppType n))
            (shadowScalar (.enum e : CppType n) (.int k))) = enumName e k := unquote_quote _
        have known : CanHold (.enum e : CppType n) (.int k) := h
        rw [text]
        exact ⟨parseScalar_scalarText F lang known, overlong_scalarText F known⟩
    | _ => exact parseScalar_inlineText F lang h
  exact ⟨inline_inlineText F (canHold_shadow h), read.1, read.2⟩

/-- The first line of a message's shadow is its key. -/
theorem shadow_keyLine (keys : KeysShown pairs) {s : Fin n}
    (hk : Descriptor.KeyFirst (P.desc s)) {slots : Slots}
    (typed : TypedFields P s (P.desc s).fields slots) :
    ∃ kf fields x more, (P.desc s).fields = kf :: fields ∧ slots = [.scalar x] :: more ∧
      CanHold kf.type x ∧ kf.repeated = false ∧ hides P pairs s kf = false ∧ ∀ indent,
        outlineFields F (shadowPool P pairs) indent ((shadowPool P pairs).desc s).fields
            (shadowFields P pairs s (P.desc s).fields slots) =
          ⟨indent, kf.name ++ ':' :: ' ' ::
              inlineText F (shadowType kf.type) (shadowScalar kf.type x)⟩ ::
            outlineFields F (shadowPool P pairs) indent (fields.map (shadowField P pairs s))
              (shadowFields P pairs s fields more) := by
  obtain ⟨kf, fields, x, more, hfields, rfl, hx, single, -⟩ := keyFirst_outline F hk typed
  have name : kf.name = ['H', 'A', 'R', 'P', 'I', 'A', '_', 'I', 'D'] := by
    simp only [Descriptor.KeyFirst, hfields] at hk
    exact hk.1
  have plain : hides P pairs s kf = false := by simp [hides, name, keys _]
  have noMap : (shadowPool P pairs).isMap
      { name := kf.name, type := shadowType kf.type, presence := kf.presence } = false :=
    notMap_of_notMessage (by rw [messageType?_shadowType, canHold_notMessage hx])
  refine ⟨kf, fields, x, more, hfields, rfl, hx, single, plain, fun indent => ?_⟩
  simp only [shadowPool_fields, hfields, List.map_cons, recastFields, plain, Bool.false_eq_true,
    ↓reduceIte, recastItems, recastValue, outlineFields, outlineField, shadowField, single, noMap,
    outlineValue, headed, List.singleton_append]

theorem fills_items (keys : KeysShown pairs) {f : Field n} (many : f.repeated)
    (plain : P.isMap f = false)
    (keyed : ∀ s, f.type.messageType? = some s → KeyedFrom P s) {vs : List Value}
    (back : ∀ v ∈ vs, ShadowReads F P lang pairs v) (typed : TypedItems P f.type vs) (indent : Nat)
    (a b : Slots) (es : List Value) :
    Fills F P lang (.sequence indent a.length f)
      (outlineItems F (shadowPool P pairs) indent { f with type := shadowType f.type }
        (shadowItems P pairs f.type vs))
      (a ++ es :: b) (a ++ (es ++ filledItems P pairs (yamlFill F lang) f.type vs) :: b) := by
  induction vs generalizing es with
  | nil =>
    rw [shadowItems, recastItems, filledItems, recastItems, outlineItems, List.append_nil]
    exact Fills.nil _ _
  | cons v vs ih =>
    obtain ⟨here, below⟩ := List.forall_mem_cons.mp back
    rw [TypedItems] at typed
    have column := outlineItems_head (F := F) (P := shadowPool P pairs) indent
      { f with type := shadowType f.type } (shadowItems P pairs f.type vs)
    rw [shadowItems, recastItems, filledItems, recastItems, outlineItems]
    have shift : ∀ w : Value, es ++ w :: filledItems P pairs (yamlFill F lang) f.type vs =
        (es ++ [w]) ++ filledItems P pairs (yamlFill F lang) f.type vs := by simp
    rw [shift]
    refine FillsRow.fills ?_ (ih below typed.2 _) column
    cases v with
    | scalar x =>
      rw [TypedValue] at typed
      have text : TextOf F lang f.type _ x := textOf_shadow typed.1
      have row : FillsRow F P lang (.sequence indent a.length f) _ _ _ :=
        fillsRow_item many (canHold_notMessage typed.1) text a.length (a ++ es :: b)
      rw [modify_mid] at row
      exact row
    | message slots =>
      obtain ⟨s, hs, fields⟩ := typed_message typed.1
      have message := notEntry_of_notMap plain hs
      obtain ⟨kf, todo, x, more, hfields, rfl, hx, single, shown, lines⟩ :=
        shadow_keyLine (F := F) keys (keyed s hs s .here message) fields
      have start : (P.new s).set 0 [.scalar x] = [[.scalar x]] ++ todo.map Field.initial := by
        simp [Pool.new, hfields]
      have inside := here s _ rfl (keyed s hs) message fields [kf] todo [[.scalar x]] more hfields rfl
        rfl [[.scalar x]] rfl (indent + 2)
      rw [← start] at inside
      have hkf : (P.desc s).fields[0]? = some kf := by simp [hfields]
      have shadow : outlineItem F (shadowPool P pairs) indent { f with type := shadowType f.type }
          (shadowValue P pairs f.type (.message ([.scalar x] :: more))) =
          ⟨indent, '-' :: ' ' :: (kf.name ++ ':' :: ' ' ::
              inlineText F (shadowType kf.type) (shadowScalar kf.type x))⟩ ::
            outlineFields F (shadowPool P pairs) (indent + 2) (todo.map (shadowField P pairs s))
              (shadowFields P pairs s todo more) := by
        simp only [recastValue, hs, outlineItem, messageType?_shadowType, lines, dashed]
      have value : recastValue P pairs (yamlFill F lang) (fun _ x => x) f.type
          (.message ([.scalar x] :: more)) =
          .message ([[.scalar x]] ++ filledFields P pairs (yamlFill F lang) s todo more) := by
        simp [recastValue, hs, hfields, recastFields, shown, recastItems]
      rw [shadow, value]
      exact fillsRow_itemMessage many plain hs hkf single (textOf_shadow hx) a b es inside

theorem fills_entries (keys : KeysShown pairs) {f : Field n} (many : f.repeated) (hm : P.isMap f)
    (keyed : ∀ s, f.type.messageType? = some s → KeyedFrom P s) {vs : List Value}
    (back : ∀ v ∈ vs, ShadowReadsBelow F P lang pairs v) (typed : TypedItems P f.type vs) (indent : Nat)
    (a b : Slots) (es : List Value) (fresh : (es.map entryKey ++ vs.map entryKey).Nodup) :
    Fills F P lang (.map indent a.length f)
      (outlineEntries F (shadowPool P pairs) indent { f with type := shadowType f.type }
        (shadowItems P pairs f.type vs))
      (a ++ es :: b) (a ++ (es ++ filledItems P pairs (yamlFill F lang) f.type vs) :: b) := by
  induction vs generalizing es with
  | nil =>
    rw [shadowItems, recastItems, filledItems, recastItems, outlineEntries, List.append_nil]
    exact Fills.nil _ _
  | cons v vs ih =>
    obtain ⟨here, below⟩ := List.forall_mem_cons.mp back
    rw [TypedItems] at typed
    have column := outlineEntries_head (F := F) (P := shadowPool P pairs) indent
      { f with type := shadowType f.type } (shadowItems P pairs f.type vs)
    have key : entryKey (recastValue P pairs (yamlFill F lang) (fun _ x => x) f.type v) = entryKey v :=
      recast_entryKey hm typed.1
    rw [shadowItems, recastItems, filledItems, recastItems, outlineEntries]
    have shift : ∀ w : Value, es ++ w :: filledItems P pairs (yamlFill F lang) f.type vs =
        (es ++ [w]) ++ filledItems P pairs (yamlFill F lang) f.type vs := by simp
    rw [shift]
    refine FillsRow.fills ?_ (ih below typed.2 _ (by simpa [key] using fresh)) column
    obtain ⟨s, kf, vf, k, w, hs, hfields, rfl, hk, hw, keySingle, valueSingle⟩ := typed_entry hm typed.1
    have entry : EntryOf P f s kf vf := ⟨hs, hfields, keySingle, valueSingle⟩
    have mapEntry := (Pool.isMap_fields hm hs).1
    have hvf : vf ∈ (P.desc s).fields := by simp [hfields]
    obtain ⟨shadow, -, -, plain⟩ := entry_shadow pairs hm hs hfields
    have absent : some k ∉ es.map entryKey :=
      fun hmem => List.disjoint_of_nodup_append fresh hmem List.mem_cons_self
    have line : outlineEntry F (shadowPool P pairs) indent { f with type := shadowType f.type }
        (shadowValue P pairs f.type (.message [[.scalar k], [w]])) =
        outlineValue F (shadowPool P pairs) indent (inlineText F (shadowType kf.type)
          (shadowScalar kf.type k)) { vf with type := shadowType vf.type }
          (shadowValue P pairs vf.type w) := by
      rw [shadowValue, recastValue_entry hs mapEntry hfields]
      simp only [outlineEntry, messageType?_shadowType, hs, Option.map_some, shadow, outlineEntryValue,
        scalarOf]
    rw [line, recastValue_entry hs mapEntry hfields]
    cases w with
    | scalar x =>
      rw [TypedValue] at hw
      exact fillsRow_entry entry many (textOf_shadow hk) (canHold_notMessage hw) (textOf_shadow hw) a b
        absent
    | message sub =>
      obtain ⟨u, hu, fields⟩ := typed_message hw
      have message := plain u hu
      have keyedU : KeyedFrom P u := (keyed s hs).field hvf hu
      obtain ⟨kf', todo, x, more, hfields', rfl, hx, single, shown, lines⟩ :=
        shadow_keyLine (F := F) keys (keyedU u .here message) fields
      have back := here.below _ rfl [.message ([.scalar x] :: more)] (by simp)
        (.message ([.scalar x] :: more)) (by simp)
      have inside := back u _ rfl keyedU message fields [] (P.desc u).fields [] _ rfl rfl rfl [] rfl
        (indent + 2)
      rw [← shadowPool_fields, lines] at inside
      have block : outlineValue F (shadowPool P pairs) indent (inlineText F (shadowType kf.type)
          (shadowScalar kf.type k)) { vf with type := shadowType vf.type }
          (shadowValue P pairs vf.type (.message ([.scalar x] :: more))) =
          headed indent (inlineText F (shadowType kf.type) (shadowScalar kf.type k)) []
            (⟨indent + 2, kf'.name ++ ':' :: ' ' ::
              inlineText F (shadowType kf'.type) (shadowScalar kf'.type x)⟩ ::
            outlineFields F (shadowPool P pairs) (indent + 2) (todo.map (shadowField P pairs u))
              (shadowFields P pairs u todo more)) := by
        simp only [recastValue, hu, outlineValue, messageType?_shadowType, lines, headedBlock]
      have value : recastValue P pairs (yamlFill F lang) (fun _ x => x) vf.type
          (.message ([.scalar x] :: more)) =
          .message (filledFields P pairs (yamlFill F lang) u (P.desc u).fields
            ([.scalar x] :: more)) := by
        simp only [recastValue, hu]
      rw [block, value]
      exact fillsRow_entryMessage entry many (textOf_shadow hk) hu a b absent inside

section Field

variable {t : Fin n} {f : Field n} {done : Slots}

/-- A hidden field has a line where it is visible, and is left as it was where it is not. -/
theorem fillsRow_hidden (hf : (P.desc t).fields[done.length]? = some f) (hidden : hides P pairs t f)
    (slot : List Value) (indent : Nat) (b : Slots) :
    (outlineField F (shadowPool P pairs) indent (shadowField P pairs t f) (shadowFill f slot) = [] ∧
        yamlFill F lang f slot = f.initial) ∨
      FillsRow F P lang (.mapping indent t)
        (outlineField F (shadowPool P pairs) indent (shadowField P pairs t f) (shadowFill f slot))
        (done ++ f.initial :: b) (done ++ yamlFill F lang f slot :: b) := by
  have noMap : (shadowPool P pairs).isMap { name := f.name, type := .string, presence := f.presence } =
      false := rfl
  rw [shadowField_hidden hidden]
  unfold shadowFill yamlFill
  by_cases shown : visible f slot
  · rw [if_pos shown, if_pos shown]
    obtain ⟨k, stored⟩ := store_placeholder F lang f done b
    have row : outlineField F (shadowPool P pairs) indent
        { name := f.name, type := .string, presence := f.presence } [.scalar (.text placeholderText)] =
        headed indent f.name (' ' :: quote placeholderText) [] := by
      simp [outlineField, noMap, outlineValue, inlineText]
    rw [row]
    exact .inr (fillsRow_stored hf inline_placeholder stored)
  · rw [if_neg shown, if_neg shown]
    have presence : f.presence := by
      simp only [visible, Bool.or_eq_true, Bool.not_eq_true', not_or, Bool.not_eq_false] at shown
      exact shown.1.2
    refine .inl ⟨?_, rfl⟩
    rw [outlineField, noMap]
    simp [presence]

theorem fillsRow_empty (hf : (P.desc t).fields[done.length]? = some f) (shown : ¬ hides P pairs t f)
    (shape : SlotShape P t f []) (indent : Nat) (b : Slots) :
    (outlineField F (shadowPool P pairs) indent (shadowField P pairs t f)
          (shadowItems P pairs f.type []) = [] ∧
        filledItems P pairs (yamlFill F lang) f.type [] = f.initial) ∨
      FillsRow F P lang (.mapping indent t)
        (outlineField F (shadowPool P pairs) indent (shadowField P pairs t f)
          (shadowItems P pairs f.type []))
        (done ++ f.initial :: b) (done ++ filledItems P pairs (yamlFill F lang) f.type [] :: b) := by
  have map : (shadowPool P pairs).isMap { f with type := shadowType f.type } = P.isMap f := by
    rw [← isMap_shadow shown, shadowField_plain shown]
  rw [shadowField_plain shown, shadowItems, recastItems, filledItems, recastItems, outlineField, map]
  by_cases hm : P.isMap f
  · have unset : f.initial = [] := by
      simp [Field.initial, P.isMap_repeated (List.mem_of_getElem? hf) hm]
    rw [if_pos hm, unset]
    exact .inr (fillsRow_flow hf (.inl rfl) _)
  · by_cases many : f.repeated
    · have unset : f.initial = [] := by simp [Field.initial, many]
      rw [if_neg hm, if_pos many, unset]
      exact .inr (fillsRow_flow hf (.inr rfl) _)
    · have presence := (shape.unset (by simpa using many) rfl).1
      exact .inl ⟨by simp [hm, many, presence], by simp [Field.initial, presence]⟩

theorem fillsRow_shown (keys : KeysShown pairs)
    (hf : (P.desc t).fields[done.length]? = some f) (keyed : KeyedFrom P t)
    (shown : ¬ hides P pairs t f) {v : Value} {vs : List Value} (shape : SlotShape P t f (v :: vs))
    (typed : TypedItems P f.type (v :: vs)) (back : ∀ w ∈ v :: vs, ShadowReadsBelow F P lang pairs w)
    (indent : Nat) (b : Slots) :
    FillsRow F P lang (.mapping indent t)
      (outlineField F (shadowPool P pairs) indent (shadowField P pairs t f)
        (shadowItems P pairs f.type (v :: vs)))
      (done ++ f.initial :: b)
      (done ++ filledItems P pairs (yamlFill F lang) f.type (v :: vs) :: b) := by
  have hmem := List.mem_of_getElem? hf
  have map : (shadowPool P pairs).isMap { f with type := shadowType f.type } = P.isMap f := by
    rw [← isMap_shadow shown, shadowField_plain shown]
  have below : ∀ s, f.type.messageType? = some s → KeyedFrom P s := fun s hs => keyed.field hmem hs
  have shadow : ShadowTyped P pairs v := shadowTyped v
  rw [shadowField_plain shown, shadowItems, recastItems, outlineField, map]
  by_cases hm : P.isMap f
  · have many := P.isMap_repeated hmem hm
    have unset : f.initial = [] := by simp [Field.initial, many]
    have inside := fills_entries keys many hm below back typed (indent + 2) done b []
      (by simpa using shape.keys hm)
    rw [TypedItems] at typed
    obtain ⟨key, inline, more, hkey, first⟩ := outlineEntry_cons (P := shadowPool P pairs)
      (f := { f with type := shadowType f.type }) F (map.trans hm) (shadow f.type typed.1) (indent + 2)
    rw [if_pos hm, unset]
    rw [shadowItems, recastItems, outlineEntries] at inside
    rw [first, List.cons_append] at inside ⊢
    exact fillsRow_map hf hm hkey inside
  · rw [if_neg hm]
    by_cases many : f.repeated
    · have unset : f.initial = [] := by simp [Field.initial, many]
      have inside := fills_items keys many (by simpa using hm) below
        (fun w hw => (back w hw).here) typed (indent + 2) done b []
      rw [TypedItems] at typed
      obtain ⟨text, more, first⟩ := outlineItem_cons (P := shadowPool P pairs)
        (f := { f with type := shadowType f.type }) F (shadow f.type typed.1) (indent + 2)
      rw [if_pos many, unset]
      rw [shadowItems, recastItems, outlineItems] at inside
      rw [first, List.cons_append] at inside ⊢
      exact fillsRow_sequence hf inside
    · have single : f.repeated = false := by simpa using many
      have alone : vs = [] := by
        have short := shape.single single
        simpa using short
      subst alone
      rw [TypedItems] at typed
      rw [if_neg many, filledItems, recastItems, recastItems]
      cases v with
      | scalar x =>
        rw [TypedValue] at typed
        have text : TextOf F lang f.type _ x := textOf_shadow typed.1
        have stored := text.set single done.length (done ++ f.initial :: b)
        rw [set_mid] at stored
        exact fillsRow_stored hf text.inline (single ▸ stored)
      | message slots =>
        obtain ⟨s, hs, fields⟩ := typed_message typed.1
        have presence := P.presence_message t f hmem single (by simp [CppType.isMessage, hs])
        have unset : f.initial = [] := by simp [Field.initial, presence]
        have message := notEntry_of_notMap (by simpa using hm) hs
        obtain ⟨kf, todo, x, more, hfields, rfl, hx, -, -, lines⟩ :=
          shadow_keyLine (F := F) keys (below s hs s .here message) fields
        have inside := (back _ List.mem_cons_self).here s _ rfl (below s hs) message fields []
          (P.desc s).fields [] _ rfl rfl rfl [] rfl (indent + 2)
        rw [← shadowPool_fields, lines] at inside
        have target : P.mutableMessage f done.length (done ++ f.initial :: b) = some (P.new s) := by
          simp [Pool.mutableMessage, hs, single, unset]
        have key : isName kf.name := P.names_word s kf (by simp [hfields])
        have row := fillsRow_message hf single hs (.bare key) target inside
        rw [set_mid] at row
        have block : outlineValue F (shadowPool P pairs) indent f.name
            { f with type := shadowType f.type }
            (shadowValue P pairs f.type (.message ([.scalar x] :: more))) =
            headed indent f.name [] (⟨indent + 2, kf.name ++ ':' :: ' ' ::
                inlineText F (shadowType kf.type) (shadowScalar kf.type x)⟩ ::
              outlineFields F (shadowPool P pairs) (indent + 2) (todo.map (shadowField P pairs s))
                (shadowFields P pairs s todo more)) := by
          simp only [recastValue, hs, outlineValue, messageType?_shadowType, lines, headedBlock]
        have value : recastValue P pairs (yamlFill F lang) (fun _ x => x) f.type
            (.message ([.scalar x] :: more)) =
            .message (filledFields P pairs (yamlFill F lang) s (P.desc s).fields
              ([.scalar x] :: more)) := by
          simp only [recastValue, hs]
        change FillsRow F P lang _ (outlineValue F (shadowPool P pairs) indent f.name _ _) _ _
        rw [block, value]
        exact row

end Field

theorem fills_fields (keys : KeysShown pairs) {t : Fin n} (keyed : KeyedFrom P t)
    (doneF todoF : List (Field n)) {todoS : Slots}
    (hfields : (P.desc t).fields = doneF ++ todoF) (typed : TypedFields P t todoF todoS)
    (back : ∀ slot ∈ todoS, ∀ v ∈ slot, ShadowReadsBelow F P lang pairs v) (done : Slots)
    (hlen : doneF.length = done.length) (indent : Nat) :
    Fills F P lang (.mapping indent t)
      (outlineFields F (shadowPool P pairs) indent (todoF.map (shadowField P pairs t))
        (shadowFields P pairs t todoF todoS))
      (done ++ todoF.map Field.initial)
      (done ++ filledFields P pairs (yamlFill F lang) t todoF todoS) := by
  induction todoS generalizing doneF todoF done with
  | nil =>
    cases todoF with
    | cons _ _ => simp [TypedFields] at typed
    | nil => simpa [recastFields, outlineFields] using Fills.nil (.mapping indent t) done
  | cons slot todoS ih =>
    cases todoF with
    | nil => simp [TypedFields] at typed
    | cons f todoF =>
      rw [TypedFields] at typed
      obtain ⟨shape, items, todo⟩ := typed
      obtain ⟨here, below⟩ := List.forall_mem_cons.mp back
      have hf : (P.desc t).fields[done.length]? = some f := by simp [hfields, ← hlen]
      have next := fun filled => ih (doneF ++ [f]) todoF (by simp [hfields]) todo below
        (done ++ [filled]) (by simp [hlen])
      have column := outlineFields_head (F := F) (P := shadowPool P pairs) indent
        (todoF.map (shadowField P pairs t)) (shadowFields P pairs t todoF todoS)
      rw [List.map_cons, List.map_cons, shadowFields, recastFields, filledFields, recastFields,
        outlineFields]
      -- what the field holds then, and that its row, if it has one, brings it there
      obtain ⟨filled, he, row⟩ : ∃ filled, (if hides P pairs t f then yamlFill F lang f slot
          else filledItems P pairs (yamlFill F lang) f.type slot) = filled ∧
          ((outlineField F (shadowPool P pairs) indent (shadowField P pairs t f)
              (if hides P pairs t f then shadowFill f slot else shadowItems P pairs f.type slot) = [] ∧
            filled = f.initial) ∨
          FillsRow F P lang (.mapping indent t)
            (outlineField F (shadowPool P pairs) indent (shadowField P pairs t f)
              (if hides P pairs t f then shadowFill f slot else shadowItems P pairs f.type slot))
            (done ++ f.initial :: todoF.map Field.initial)
            (done ++ filled :: todoF.map Field.initial)) := by
        refine ⟨_, rfl, ?_⟩
        by_cases hidden : hides P pairs t f
        · rw [if_pos hidden, if_pos hidden]
          exact fillsRow_hidden hf hidden slot indent _
        · rw [if_neg hidden, if_neg hidden]
          cases slot with
          | nil => exact fillsRow_empty hf hidden shape indent _
          | cons v vs => exact .inr (fillsRow_shown keys hf keyed hidden shape items here indent _)
      rw [he]
      have after := next filled
      rw [List.append_assoc, List.append_assoc, List.singleton_append, List.singleton_append] at after
      rcases row with ⟨none, rfl⟩ | row
      · rw [none, List.nil_append]
        exact after
      · exact row.fills after column

theorem shadowReadsBelow (keys : KeysShown pairs) (v : Value) :
    ShadowReadsBelow F P lang pairs v := by
  induction v using Value.induct with
  | scalar x =>
    constructor
    · intro s slots h
      simp at h
    · intro slots h
      simp at h
  | message slots ih =>
    constructor
    · intro s slots' h keyed _ typed doneF todoF doneS todoS hfields hslots hlen done hdone indent
      obtain rfl := Value.message.inj h
      rw [hfields, hslots] at typed
      exact fills_fields keys keyed doneF todoF hfields (typedFields_append hlen typed)
        (fun slot hs => ih slot (by simp [hslots, hs])) done hdone indent
    · intro slots' h slot hs w hw
      obtain rfl := Value.message.inj h
      exact (ih slot hs w hw).here

/-- Redacted YAML is read into the message with its visible `phi` fields filled in from the
placeholder. -/
theorem fromYaml_shadow (keys : KeysShown pairs) {t : Fin n}
    (message : (P.desc t).mapEntry = false) (keyed : KeyedFrom P t) {m : Slots} (typed : Typed P t m) :
    fromYaml F P lang t (toYaml F (shadowPool P pairs) t (shadowFields P pairs t (P.desc t).fields m))
      (P.new t) = .ok (true, filledFields P pairs (yamlFill F lang) t (P.desc t).fields m) := by
  have shadow : Typed (shadowPool P pairs) t (shadowFields P pairs t (P.desc t).fields m) :=
    typed_shadow typed
  obtain ⟨kf, fields, x, more, hfields, rfl, hx, single, shown, lines⟩ :=
    shadow_keyLine (F := F) keys (keyed t .here message) typed
  have outline := lines 0
  have ok : ∀ l ∈ outlineFields F (shadowPool P pairs) 0 ((shadowPool P pairs).desc t).fields
      (shadowFields P pairs t (P.desc t).fields ([.scalar x] :: more)), LineOk l :=
    outlineFields_ok ((shadowPool P pairs).names_word t) (fun _ _ v _ => linesOk v) 0 shadow
  have text : tokenize (toYaml F (shadowPool P pairs) t
      (shadowFields P pairs t (P.desc t).fields ([.scalar x] :: more))) =
      outlineFields F (shadowPool P pairs) 0 ((shadowPool P pairs).desc t).fields
        (shadowFields P pairs t (P.desc t).fields ([.scalar x] :: more)) := by
    rw [toYaml_eq_lineText F shadow (by simp [outline]), tokenize_lineText ok]
  have hf : (P.desc t).fields[0]? = some kf := by simp [hfields]
  have key : TextOf F lang kf.type _ x := textOf_shadow hx
  have stored : storeScalar F lang kf 0 (inlineText F (shadowType kf.type) (shadowScalar kf.type x))
      kf.repeated (P.new t) = .ok ([[.scalar x]] ++ fields.map Field.initial, 1) := by
    rw [single, key.set single]
    simp [Pool.new, hfields]
  have first : ∀ bound, read F P lang (bound + 1) (.mapping 0 t)
      ⟨outlineFields F (shadowPool P pairs) 0 ((shadowPool P pairs).desc t).fields
        (shadowFields P pairs t (P.desc t).fields ([.scalar x] :: more)), P.new t, 0⟩ =
        read F P lang bound (.mapping 0 t)
          ⟨outlineFields F (shadowPool P pairs) 0 (fields.map (shadowField P pairs t))
              (shadowFields P pairs t fields more) ++ [],
            [[.scalar x]] ++ fields.map Field.initial, 1⟩ := by
    intro bound
    rw [outline, List.append_nil]
    exact read_stored hf key.inline stored _ bound 0
  have todo : TypedFields P t fields more := by
    rw [Typed, hfields, TypedFields] at typed
    exact typed.2.2
  have below : ∀ slot ∈ more, ∀ v ∈ slot, ShadowReadsBelow F P lang pairs v :=
    fun _ _ v _ => shadowReadsBelow keys v
  have others := fills_fields keys keyed [kf] fields hfields todo below [[.scalar x]] rfl 0
  obtain ⟨hits, hle, hread⟩ := others [] (outlineFields F (shadowPool P pairs) 0
    ((shadowPool P pairs).desc t).fields
    (shadowFields P pairs t (P.desc t).fields ([.scalar x] :: more))).length 1 (by simp [Ends])
    (by simp [outline])
  have notEmpty : outlineFields F (shadowPool P pairs) 0 ((shadowPool P pairs).desc t).fields
      (shadowFields P pairs t (P.desc t).fields ([.scalar x] :: more)) ≠ [⟨0, ['{', '}']⟩] := by
    intro he
    have colon : ':' ∈ kf.name ++ ':' :: ' ' ::
        inlineText F (shadowType kf.type) (shadowScalar kf.type x) := by simp
    rw [outline] at he
    rw [(Ln.mk.inj (List.cons.inj he).1).2] at colon
    exact absurd colon (by decide)
  have found : hits ≠ 0 := by omega
  have value : filledFields P pairs (yamlFill F lang) t (P.desc t).fields ([.scalar x] :: more) =
      [[.scalar x]] ++ filledFields P pairs (yamlFill F lang) t fields more := by
    simp [hfields, recastFields, shown, recastItems, recastValue]
  rw [fromYaml]
  simp only [text]
  rw [if_neg notEmpty, first, hread, value]
  simp [Except.map, found]

end Reading

end Harpia
