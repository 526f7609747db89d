import Harpia.RedactedShadow

namespace Harpia

open Text Reflection

variable {n : Nat}

/-- A character that the YAML reader understands when it is written for JSON. -/
def readableChar (c : Char) : Bool := c = '\n' || c = '\t' || 32 ≤ c.toNat

def readableText (s : List Char) : Bool := s.all readableChar

section Scalars

theorem jsonEscapeChar_readable {c : Char} (h : readableChar c) : jsonEscapeChar c = quoteChar c := by
  by_cases backslash : c = '\\'
  · subst backslash
    rfl
  by_cases mark : c = '"'
  · subst mark
    rfl
  by_cases feed : c = '\n'
  · subst feed
    rfl
  by_cases tab : c = '\t'
  · subst tab
    rfl
  have wide : ¬ c.toNat < 32 := by
    simpa [readableChar, feed, tab] using h
  have noReturn : c ≠ '\r' := by
    rintro rfl
    exact wide (by decide)
  have plain : quoteChar c = [c] := by
    unfold quoteChar
    split <;> first | rfl | contradiction
  simp [jsonEscapeChar, backslash, mark, feed, tab, noReturn, wide, plain]

theorem quoted_jsonEscape {s : List Char} (h : readableText s) : quoted (jsonEscape s) = quote s := by
  have same : jsonEscape s = s.flatMap quoteChar := by
    induction s with
    | nil => rfl
    | cons c s ih =>
      simp only [readableText, List.all_cons, Bool.and_eq_true] at h
      rw [List.flatMap_cons, ← ih h.2, ← jsonEscapeChar_readable h.1]
      rfl
  rw [quoted, quote, same]
  simp

theorem readableText_name {s : List Char} (h : isName s) : readableText s := by
  refine List.all_eq_true.mpr fun c hc => ?_
  have word := (isName_cons h).2 c hc
  have wide : 32 ≤ c.toNat := by
    by_contra low
    have space := isXmlChar_of_isWord word
    have tab : c ≠ '\t' := ne_of_isWord word (by decide)
    have feed : c ≠ '\n' := ne_of_isWord word (by decide)
    have ret : c ≠ '\r' := ne_of_isWord word (by decide)
    simp only [Markup.isXmlChar, tab, feed, ret, decide_false, Bool.false_or, Bool.or_eq_true,
      Bool.and_eq_true, decide_eq_true_eq] at space
    omega
  simp [readableChar, wide]

theorem quoted_name {s : List Char} (h : isName s) : quoted s = quote s := by
  have plain : ∀ c ∈ s, quoteChar c = [c] := by
    intro c hc
    have word := (isName_cons h).2 c hc
    have clean : c ≠ '\\' ∧ c ≠ '"' ∧ c ≠ '\n' ∧ c ≠ '\t' :=
      ⟨ne_of_isWord word (by decide), ne_of_isWord word (by decide), ne_of_isWord word (by decide),
        ne_of_isWord word (by decide)⟩
    unfold quoteChar
    split <;> simp_all
  have same : s.flatMap quoteChar = s := by
    rw [List.flatMap_congr plain, List.flatMap_singleton']
  rw [quoted, quote, same]
  simp

variable (F : FloatText)

theorem scalarValue_yaml {ty : CppType n} {x : Scalar} (h : CanHold ty x)
    (readable : scalarAll readableText (shadowScalar ty x)) :
    scalarValue F .yaml ty x = inlineText F (shadowType ty) (shadowScalar ty x) := by
  cases ty <;> cases x <;> simp only [CanHold] at h
  case int32.int k => rfl
  case int64.int k => rfl
  case uint32.int k => rfl
  case uint64.int k => rfl
  case bool.bool b => rfl
  case enum.int e k => exact quoted_name (find?_enumName h).2
  case string.text s => exact quoted_jsonEscape readable

theorem scalarValue_xml {ty : CppType n} {x : Scalar} (h : CanHold ty x) :
    scalarValue F .xml ty x = xmlText F (shadowType ty) (shadowScalar ty x) := by
  cases ty <;> cases x <;> simp only [CanHold] at h
  case int32.int k => rfl
  case int64.int k => rfl
  case uint32.int k => rfl
  case uint64.int k => rfl
  case bool.bool b => rfl
  case enum.int e k =>
    have word := (isName_cons (find?_enumName h).2).2
    exact (escape_plain fun c hc => by simp [plainChar, word c hc]).symm
  case string.text s => rfl

end Scalars

section Yaml

variable (F : FloatText) (P : Pool n) (pairs : List (List Char × List Char))

/-- The redacting walk writes a value as the YAML writer writes its shadow. -/
structure YamlShadow (v : Value) : Prop where
  message : ∀ s slots, v = .message slots → (P.desc s).mapEntry = false →
    TypedFields P s (P.desc s).fields slots →
    textsAll readableText (shadowFields P pairs s (P.desc s).fields slots) → ∀ indent first,
    walkFields F P (shouldRedact true pairs) .yaml s indent first (P.desc s).fields slots =
      writeFields F (shadowPool P pairs) indent ((shadowPool P pairs).desc s).fields
        (shadowFields P pairs s (P.desc s).fields slots)
  entry : ∀ f, P.isMap f → TypedValue P f.type v →
    valueAll readableText (shadowValue P pairs f.type v) → ∀ indent first,
    walkEntry F P (shouldRedact true pairs) .yaml indent first f v =
      writeEntry F (shadowPool P pairs) indent { f with type := shadowType f.type }
        (shadowValue P pairs f.type v)

variable {F P pairs}

theorem yamlBlock_shadow {v : Value} (h : YamlShadow F P pairs v) {f : Field n}
    (plain : ∀ s, f.type.messageType? = some s → (P.desc s).mapEntry = false)
    (typed : TypedValue P f.type v) (readable : valueAll readableText (shadowValue P pairs f.type v))
    (indent : Nat) :
    yamlBlock f.type (walkValue F P (shouldRedact true pairs) .yaml indent f.type v) =
      writeBlock F (shadowPool P pairs) indent { f with type := shadowType f.type }
        (shadowValue P pairs f.type v) := by
  cases v with
  | scalar x =>
    rw [TypedValue] at typed
    have scalar : f.type.isMessage = false := by simp [CppType.isMessage, canHold_notMessage typed]
    rw [shadowValue, recastValue, valueAll] at readable
    rw [shadowValue, recastValue, walkValue, writeBlock, yamlBlock, scalar,
      scalarValue_yaml F typed readable]
    simp
  | message slots =>
    obtain ⟨s, hs, fields⟩ := typed_message typed
    simp only [recastValue, hs, valueAll] at readable
    have text := h.message s slots rfl (plain s hs) fields readable indent true
    simp only [walkValue, writeBlock, yamlBlock, recastValue, hs, CppType.isMessage, Option.isSome_some,
      ↓reduceIte, messageType?_shadowType, braced, reduceCtorEq, text]

/-- Behind a dash, a block loses the indent of its first line. -/
theorem dashed_text {l : Ln} (lines : List Ln) {indent : Nat} (h : l.indent = indent + 2) :
    lineText (dashed indent (l :: lines)) =
      pad indent ++ '-' :: ' ' :: (lineText (l :: lines)).drop (indent + 2) := by
  have first : (renderLn l ++ lineText lines).drop (indent + 2) = l.s ++ '\n' :: lineText lines := by
    rw [renderLn, h]
    simp [pad]
  rw [render_cons, first]
  simp [dashed, renderLn]

theorem spliceDash_writeFields {Q : Pool n} {s : Fin n} {slots : Slots}
    (typed : TypedFields Q s (Q.desc s).fields slots) (indent : Nat)
    (some : writeFields F Q (indent + 4) (Q.desc s).fields slots ≠ []) :
    spliceDash (writeFields F Q (indent + 4) (Q.desc s).fields slots) (indent + 2) =
      pad (indent + 2) ++
        '-' :: ' ' :: (writeFields F Q (indent + 4) (Q.desc s).fields slots).drop (indent + 4) := by
  have lines := writeFields_eq (F := F) (fun _ _ v _ => prints v) (indent + 4) typed
  have ok := outlineFields_ok (F := F) (Q.names_word s) (fun _ _ v _ => linesOk v) (indent + 4) typed
  have column := outlineFields_head (F := F) (P := Q) (indent + 4) (Q.desc s).fields slots
  rw [← lines] at some ⊢
  cases hb : outlineFields F Q (indent + 4) (Q.desc s).fields slots with
  | nil => simp [hb] at some
  | cons l below =>
    rw [hb] at ok column
    rw [spliceDash_render (indent + 2) (column l rfl) fun k hk => (ok k hk).oneLine,
      dashed_text below (column l rfl)]

theorem listItem_shadow {v : Value} (h : YamlShadow F P pairs v) {f : Field n}
    (plain : ∀ s, f.type.messageType? = some s → (P.desc s).mapEntry = false)
    (typed : TypedValue P f.type v) (readable : valueAll readableText (shadowValue P pairs f.type v))
    (indent : Nat) (first : Bool) :
    listItem .yaml indent first f
        (walkValue F P (shouldRedact true pairs) .yaml (indent + 4) f.type v) =
      writeItem F (shadowPool P pairs) indent { f with type := shadowType f.type }
        (shadowValue P pairs f.type v) := by
  cases v with
  | scalar x =>
    rw [TypedValue] at typed
    have scalar : f.type.isMessage = false := by simp [CppType.isMessage, canHold_notMessage typed]
    rw [shadowValue, recastValue, valueAll] at readable
    rw [shadowValue, recastValue, walkValue, writeItem, scalarValue_yaml F typed readable]
    simp [listItem, scalar]
  | message slots =>
    obtain ⟨s, hs, fields⟩ := typed_message typed
    simp only [recastValue, hs, valueAll] at readable
    have text := h.message s slots rfl (plain s hs) fields readable (indent + 4) true
    have shadow : Typed (shadowPool P pairs) s (shadowFields P pairs s (P.desc s).fields slots) :=
      typed_shadow fields
    have spliced := spliceDash_writeFields (F := F) shadow indent
    have message : f.type.isMessage := by simp [CppType.isMessage, hs]
    simp only [walkValue, writeItem, listItem, recastValue, hs, message, ↓reduceIte,
      messageType?_shadowType, braced, reduceCtorEq, text]
    split
    · rfl
    next some => exact (spliced some).symm

theorem walkItems_shadow {f : Field n} (plain : ∀ s, f.type.messageType? = some s →
    (P.desc s).mapEntry = false) {vs : List Value} (ih : ∀ v ∈ vs, YamlShadow F P pairs v)
    (typed : TypedItems P f.type vs)
    (readable : itemsAll readableText (shadowItems P pairs f.type vs)) (indent : Nat) :
    walkItems F P (shouldRedact true pairs) .yaml indent f vs =
      writeItems F (shadowPool P pairs) indent { f with type := shadowType f.type }
        (shadowItems P pairs f.type vs) := by
  induction vs with
  | nil => rfl
  | cons v vs rest =>
    obtain ⟨here, below⟩ := List.forall_mem_cons.mp ih
    rw [TypedItems] at typed
    rw [shadowItems, recastItems, itemsAll, Bool.and_eq_true] at readable
    rw [shadowItems, recastItems, walkItems, writeItems, rest below typed.2 readable.2]
    congr 1
    exact listItem_shadow here plain typed.1 readable.1 indent false

theorem walkEntries_shadow {f : Field n} (hm : P.isMap f) {vs : List Value}
    (ih : ∀ v ∈ vs, YamlShadow F P pairs v) (typed : TypedItems P f.type vs)
    (readable : itemsAll readableText (shadowItems P pairs f.type vs)) (indent : Nat) :
    walkEntries F P (shouldRedact true pairs) .yaml indent f vs =
      writeEntries F (shadowPool P pairs) indent { f with type := shadowType f.type }
        (shadowItems P pairs f.type vs) := by
  induction vs with
  | nil => rfl
  | cons v vs rest =>
    obtain ⟨here, below⟩ := List.forall_mem_cons.mp ih
    rw [TypedItems] at typed
    rw [shadowItems, recastItems, itemsAll, Bool.and_eq_true] at readable
    rw [shadowItems, recastItems, walkEntries, writeEntries, rest below typed.2 readable.2,
      here.entry f hm typed.1 readable.1]

theorem shouldRedact_eq {t : Fin n} (message : (P.desc t).mapEntry = false) (f : Field n) :
    shouldRedact true pairs (P.desc t).name f.name = hides P pairs t f := by
  rw [hides_message message, shouldRedact, Bool.true_and]

theorem walkField_shadow {t : Fin n} {f : Field n} (hf : f ∈ (P.desc t).fields)
    (message : (P.desc t).mapEntry = false) {slot : List Value} (shape : SlotShape P t f slot)
    (ih : ∀ v ∈ slot, YamlShadow F P pairs v) (typed : TypedItems P f.type slot)
    (readable : itemsAll readableText
      (if hides P pairs t f then shadowFill f slot else shadowItems P pairs f.type slot))
    (indent : Nat) :
    (if visible f slot then walkField F P (shouldRedact true pairs) .yaml t indent f slot else []) =
      writeField F (shadowPool P pairs) indent (shadowField P pairs t f)
        (if hides P pairs t f then shadowFill f slot else shadowItems P pairs f.type slot) := by
  have redacted : shouldRedact true pairs (P.desc t).name f.name = hides P pairs t f :=
    shouldRedact_eq message f
  by_cases hidden : hides P pairs t f
  · rw [if_pos hidden, shadowField_hidden hidden]
    have noMap : (shadowPool P pairs).isMap
        { name := f.name, type := .string, presence := f.presence } = false := rfl
    have text : quote placeholderText = placeholder .yaml := by decide
    unfold shadowFill
    by_cases shown : visible f slot
    · have printed : walkField F P (shouldRedact true pairs) .yaml t indent f slot =
          redactedField .yaml indent f.name := by
        cases slot <;> simp [walkField, redacted, hidden]
      rw [if_pos shown, if_pos shown, printed, writeField, noMap]
      simp [redactedField, writeBlock, inlineText, text]
    · have presence : f.presence := by
        simp only [visible, Bool.or_eq_true, Bool.not_eq_true', not_or, Bool.not_eq_false] at shown
        exact shown.1.2
      rw [if_neg shown, if_neg shown, writeField, noMap]
      simp [presence]
  · rw [if_neg hidden] at readable ⊢
    have map : (shadowPool P pairs).isMap { f with type := shadowType f.type } = P.isMap f := by
      rw [← isMap_shadow hidden, shadowField_plain hidden]
    rw [shadowField_plain hidden]
    cases slot with
    | nil =>
      rw [shadowItems, recastItems, writeField, map]
      by_cases hm : P.isMap f
      · have many := P.isMap_repeated hf hm
        simp [visible, many, walkField, redacted, hidden, hm, emptyField]
      · by_cases many : f.repeated
        · simp [visible, many, walkField, redacted, hidden, hm, emptyField]
        · have presence := (shape.unset (by simpa using many) rfl).1
          simp [visible, many, presence, hm]
    | cons v vs =>
      obtain ⟨here, below⟩ := List.forall_mem_cons.mp ih
      rw [TypedItems] at typed
      rw [shadowItems, recastItems, itemsAll, Bool.and_eq_true] at readable
      rw [shadowItems, recastItems, writeField, map]
      have shown : visible f (v :: vs) := by simp [visible]
      rw [if_pos shown]
      by_cases hm : P.isMap f
      · have entry := here.entry f hm typed.1 readable.1 indent true
        have entries := walkEntries_shadow hm below typed.2 readable.2 indent
        simp [walkField, redacted, hidden, hm, openField, closeField, entry, entries]
      · have plain : ∀ s, f.type.messageType? = some s → (P.desc s).mapEntry = false :=
          fun s hs => notEntry_of_notMap (by simpa using hm) hs
        by_cases many : f.repeated
        · have item := listItem_shadow here plain typed.1 readable.1 indent true
          have items := walkItems_shadow plain below typed.2 readable.2 indent
          simp [walkField, redacted, hidden, hm, many, openField, closeField, deeper, item, items]
        · have block := yamlBlock_shadow here plain typed.1 readable.1 (indent + 2)
          simp [walkField, redacted, hidden, hm, many, singularField, deeper, block]

theorem walkFields_shadow {t : Fin n} (message : (P.desc t).mapEntry = false)
    (fields : List (Field n)) (hfields : ∀ f ∈ fields, f ∈ (P.desc t).fields)
    {slots : List (List Value)} (ih : ∀ slot ∈ slots, ∀ v ∈ slot, YamlShadow F P pairs v)
    (typed : TypedFields P t fields slots)
    (readable : textsAll readableText (shadowFields P pairs t fields slots)) (indent : Nat)
    (first : Bool) :
    walkFields F P (shouldRedact true pairs) .yaml t indent first fields slots =
      writeFields F (shadowPool P pairs) indent (fields.map (shadowField P pairs t))
        (shadowFields P pairs t fields slots) := by
  induction slots generalizing fields first with
  | nil => simp [walkFields, recastFields, writeFields]
  | cons slot slots rest =>
    cases fields with
    | nil => simp [walkFields, recastFields, writeFields]
    | cons f fields =>
      obtain ⟨here, below⟩ := List.forall_mem_cons.mp ih
      obtain ⟨hf, hmore⟩ := List.forall_mem_cons.mp hfields
      rw [TypedFields] at typed
      rw [shadowFields, recastFields, textsAll, Bool.and_eq_true] at readable
      have field := walkField_shadow hf message typed.1 here typed.2.1 readable.1 indent
      rw [shadowFields, recastFields, List.map_cons, writeFields, ← field, walkFields,
        rest fields hmore below typed.2.2 readable.2, rest fields hmore below typed.2.2 readable.2]
      split <;> simp

variable (pairs) in
/-- The shadow of the type of a map's entries. -/
theorem entry_shadow {f : Field n} (hm : P.isMap f) {s : Fin n} (hs : f.type.messageType? = some s)
    {kf vf : Field n} (hfields : (P.desc s).fields = [kf, vf]) :
    ((shadowPool P pairs).desc s).fields =
        [{ kf with type := shadowType kf.type }, { vf with type := shadowType vf.type }] ∧
      kf.name = ['k', 'e', 'y'] ∧ vf.name = ['v', 'a', 'l', 'u', 'e'] ∧
      ∀ u, vf.type.messageType? = some u → (P.desc u).mapEntry = false := by
  obtain ⟨entry, kf', vf', hfields', hkey, hvalue, -, single, -⟩ := Pool.isMap_fields hm hs
  rw [hfields] at hfields'
  obtain ⟨rfl, rest⟩ := List.cons.inj hfields'
  obtain ⟨rfl, -⟩ := List.cons.inj rest
  have field : ∀ g, shadowField P pairs s g = { g with type := shadowType g.type } :=
    fun g => shadowField_plain (by simp [hides_entry entry])
  refine ⟨by simp [shadowPool, hfields, field], hkey, hvalue, fun u hu => ?_⟩
  by_contra nested
  have many := P.map_repeated s vf (by simp [hfields]) u (CppType.eq_message hu) (by simpa using nested)
  simp [single] at many

theorem walkEntry_shadow {slots : List (List Value)}
    (ih : ∀ slot ∈ slots, ∀ v ∈ slot, YamlShadow F P pairs v) {f : Field n} (hm : P.isMap f)
    (typed : TypedValue P f.type (.message slots))
    (readable : valueAll readableText (shadowValue P pairs f.type (.message slots))) (indent : Nat)
    (first : Bool) :
    walkEntry F P (shouldRedact true pairs) .yaml indent first f (.message slots) =
      writeEntry F (shadowPool P pairs) indent { f with type := shadowType f.type }
        (shadowValue P pairs f.type (.message slots)) := by
  obtain ⟨s, kf, vf, k, w, hs, hfields, he, hk, hw, -⟩ := typed_entry hm typed
  obtain rfl := Value.message.inj he
  have entry := (Pool.isMap_fields hm hs).1
  obtain ⟨shadow, -, -, plain⟩ := entry_shadow pairs hm hs hfields
  rw [shadowValue, recastValue_entry hs entry hfields] at readable ⊢
  simp only [valueAll, textsAll, itemsAll, Bool.and_true, Bool.and_eq_true] at readable
  have block := yamlBlock_shadow (ih [w] (by simp) w (by simp)) plain hw readable.2 (indent + 4)
  have key := scalarValue_yaml F hk readable.1
  simp only [walkEntry, writeEntry, hs, messageType?_shadowType, Option.map_some, hfields, shadow,
    mapItem, scalarOf, walkEntryValue, writeEntryValue, deeper, ↓reduceIte, key, block]

theorem yamlShadow (v : Value) : YamlShadow F P pairs v := by
  induction v using Value.induct with
  | scalar x =>
    constructor
    · intro s slots h
      exact absurd h (by simp)
    · intro f hm typed
      obtain ⟨s, kf, vf, k, w, -, -, h, -⟩ := typed_entry hm typed
      exact absurd h (by simp)
  | message slots ih =>
    constructor
    · intro s slots' h message typed readable indent first
      obtain rfl := Value.message.inj h
      exact walkFields_shadow message _ (fun f hf => hf) ih typed readable indent first
    · exact fun f hm typed readable indent first =>
        walkEntry_shadow ih hm typed readable indent first

/-- Redacted YAML is what the YAML writer makes of the shadow of a message. -/
theorem redactedToString_yaml {t : Fin n} (message : (P.desc t).mapEntry = false) {m : Slots}
    (typed : Typed P t m)
    (readable : textsAll readableText (shadowFields P pairs t (P.desc t).fields m)) :
    redactedToString F P (shouldRedact true pairs) .yaml t m =
      toYaml F (shadowPool P pairs) t (shadowFields P pairs t (P.desc t).fields m) := by
  have text := walkFields_shadow (F := F) message _ (fun f hf => hf) (fun _ _ v _ => yamlShadow v) typed
    readable 0 true
  simp only [redactedToString, braced, reduceCtorEq, ↓reduceIte, text]
  rfl

end Yaml

section Xml

variable (F : FloatText) (P : Pool n) (pairs : List (List Char × List Char))

/-- The redacting walk writes a value as the XML writer writes its shadow. -/
structure XmlShadow (v : Value) : Prop where
  value : ∀ ty, (∀ s, ty.messageType? = some s → (P.desc s).mapEntry = false) → TypedValue P ty v →
    ∀ indent, walkValue F P (shouldRedact true pairs) .xml indent ty v =
      Xml.writeValue F (shadowPool P pairs) (shadowType ty) (shadowValue P pairs ty v)
  entry : ∀ f, P.isMap f → TypedValue P f.type v → ∀ indent first,
    walkEntry F P (shouldRedact true pairs) .xml indent first f v =
      tagged f.name (Xml.writeValue F (shadowPool P pairs) (shadowType f.type)
        (shadowValue P pairs f.type v))

variable {F P pairs}

theorem walkItems_xml {f : Field n} (plain : ∀ s, f.type.messageType? = some s →
    (P.desc s).mapEntry = false) {vs : List Value} (ih : ∀ v ∈ vs, XmlShadow F P pairs v)
    (typed : TypedItems P f.type vs) (indent : Nat) :
    walkItems F P (shouldRedact true pairs) .xml indent f vs =
      Xml.writeItems F (shadowPool P pairs) { f with type := shadowType f.type }
        (shadowItems P pairs f.type vs) := by
  induction vs with
  | nil => rfl
  | cons v vs rest =>
    obtain ⟨here, below⟩ := List.forall_mem_cons.mp ih
    rw [TypedItems] at typed
    rw [shadowItems, recastItems, walkItems, Xml.writeItems, rest below typed.2,
      here.value f.type plain typed.1]
    rfl

theorem walkEntries_xml {f : Field n} (hm : P.isMap f) {vs : List Value}
    (ih : ∀ v ∈ vs, XmlShadow F P pairs v) (typed : TypedItems P f.type vs) (indent : Nat) :
    walkEntries F P (shouldRedact true pairs) .xml indent f vs =
      Xml.writeItems F (shadowPool P pairs) { f with type := shadowType f.type }
        (shadowItems P pairs f.type vs) := by
  induction vs with
  | nil => rfl
  | cons v vs rest =>
    obtain ⟨here, below⟩ := List.forall_mem_cons.mp ih
    rw [TypedItems] at typed
    rw [shadowItems, recastItems, walkEntries, Xml.writeItems, rest below typed.2,
      here.entry f hm typed.1]

theorem walkField_xml {t : Fin n} {f : Field n} (hf : f ∈ (P.desc t).fields)
    (message : (P.desc t).mapEntry = false) {slot : List Value} (shape : SlotShape P t f slot)
    (ih : ∀ v ∈ slot, XmlShadow F P pairs v) (typed : TypedItems P f.type slot) (indent : Nat) :
    (if visible f slot then walkField F P (shouldRedact true pairs) .xml t indent f slot else []) =
      Xml.writeField F (shadowPool P pairs) (shadowField P pairs t f)
        (if hides P pairs t f then shadowFill f slot else shadowItems P pairs f.type slot) := by
  have redacted : shouldRedact true pairs (P.desc t).name f.name = hides P pairs t f :=
    shouldRedact_eq message f
  by_cases hidden : hides P pairs t f
  · rw [if_pos hidden, shadowField_hidden hidden]
    have text : escape placeholderText = placeholder .xml := by decide
    unfold shadowFill
    by_cases shown : visible f slot
    · have printed : walkField F P (shouldRedact true pairs) .xml t indent f slot =
          redactedField .xml indent f.name := by
        cases slot <;> simp [walkField, redacted, hidden]
      rw [if_pos shown, if_pos shown, printed, Xml.writeField]
      simp [redactedField, Xml.writeValue, xmlText, text]
    · have presence : f.presence := by
        simp only [visible, Bool.or_eq_true, Bool.not_eq_true', not_or, Bool.not_eq_false] at shown
        exact shown.1.2
      rw [if_neg shown, if_neg shown, Xml.writeField]
      simp [presence]
  · rw [if_neg hidden, shadowField_plain hidden]
    cases slot with
    | nil =>
      rw [shadowItems, recastItems, Xml.writeField]
      by_cases many : f.repeated
      · by_cases hm : P.isMap f <;>
          simp [visible, many, walkField, redacted, hidden, hm, emptyField, openField, closeField]
      · have presence := (shape.unset (by simpa using many) rfl).1
        simp [visible, many, presence]
    | cons v vs =>
      obtain ⟨here, below⟩ := List.forall_mem_cons.mp ih
      rw [TypedItems] at typed
      have shown : visible f (v :: vs) := by simp [visible]
      rw [if_pos shown, shadowItems, recastItems, Xml.writeField]
      by_cases hm : P.isMap f
      · have many := P.isMap_repeated hf hm
        have entry := here.entry f hm typed.1 indent true
        have entries := walkEntries_xml hm below typed.2 indent
        simp [walkField, redacted, hidden, hm, many, openField, closeField, entry, entries]
      · have plain : ∀ s, f.type.messageType? = some s → (P.desc s).mapEntry = false :=
          fun s hs => notEntry_of_notMap (by simpa using hm) hs
        have value := here.value f.type plain typed.1 indent
        by_cases many : f.repeated
        · have items := walkItems_xml plain below typed.2 indent
          simp [walkField, redacted, hidden, hm, many, openField, closeField, deeper, listItem, value,
            items]
        · simp [walkField, redacted, hidden, hm, many, singularField, deeper, value]

theorem walkFields_xml {t : Fin n} (message : (P.desc t).mapEntry = false) (fields : List (Field n))
    (hfields : ∀ f ∈ fields, f ∈ (P.desc t).fields) {slots : List (List Value)}
    (ih : ∀ slot ∈ slots, ∀ v ∈ slot, XmlShadow F P pairs v) (typed : TypedFields P t fields slots)
    (indent : Nat) (first : Bool) :
    walkFields F P (shouldRedact true pairs) .xml t indent first fields slots =
      Xml.writeFields F (shadowPool P pairs) (fields.map (shadowField P pairs t))
        (shadowFields P pairs t fields slots) := by
  induction slots generalizing fields first with
  | nil => simp [walkFields, recastFields, Xml.writeFields]
  | cons slot slots rest =>
    cases fields with
    | nil => simp [walkFields, recastFields, Xml.writeFields]
    | cons f fields =>
      obtain ⟨here, below⟩ := List.forall_mem_cons.mp ih
      obtain ⟨hf, hmore⟩ := List.forall_mem_cons.mp hfields
      rw [TypedFields] at typed
      have field := walkField_xml hf message typed.1 here typed.2.1 indent
      rw [shadowFields, recastFields, List.map_cons, Xml.writeFields, ← field, walkFields,
        rest fields hmore below typed.2.2, rest fields hmore below typed.2.2]
      split <;> simp

theorem walkEntry_xml {slots : List (List Value)}
    (ih : ∀ slot ∈ slots, ∀ v ∈ slot, XmlShadow F P pairs v) {f : Field n} (hm : P.isMap f)
    (typed : TypedValue P f.type (.message slots)) (indent : Nat) (first : Bool) :
    walkEntry F P (shouldRedact true pairs) .xml indent first f (.message slots) =
      tagged f.name (Xml.writeValue F (shadowPool P pairs) (shadowType f.type)
        (shadowValue P pairs f.type (.message slots))) := by
  obtain ⟨s, kf, vf, k, w, hs, hfields, he, hk, hw, hkr, hvr⟩ := typed_entry hm typed
  obtain rfl := Value.message.inj he
  obtain ⟨shadow, hkey, hvalue, plain⟩ := entry_shadow pairs hm hs hfields
  have entry := (Pool.isMap_fields hm hs).1
  have value := (ih [w] (by simp) w (by simp)).value vf.type plain hw indent
  have key := scalarValue_xml F hk
  rw [shadowValue, recastValue_entry hs entry hfields]
  simp only [walkEntry, hs, Option.map_some, hfields, mapItem, scalarOf, walkEntryValue, deeper,
    reduceCtorEq, ↓reduceIte, Xml.writeValue, messageType?_shadowType, shadow, Xml.writeFields,
    Xml.writeField, hkr, hvr, Bool.false_eq_true, List.append_nil, hkey, hvalue, key, value]

theorem xmlShadow (v : Value) : XmlShadow F P pairs v := by
  induction v using Value.induct with
  | scalar x =>
    constructor
    · intro ty _ typed indent
      rw [TypedValue] at typed
      rw [walkValue, shadowValue, recastValue, Xml.writeValue, scalarValue_xml F typed]
    · intro f hm typed
      obtain ⟨s, kf, vf, k, w, -, -, h, -⟩ := typed_entry hm typed
      exact absurd h (by simp)
  | message slots ih =>
    constructor
    · intro ty plain typed indent
      obtain ⟨s, hs, fields⟩ := typed_message typed
      have text := walkFields_xml (plain s hs) _ (fun f hf => hf) ih fields indent true
      simp only [walkValue, shadowValue, recastValue, Xml.writeValue, hs, messageType?_shadowType,
        braced, reduceCtorEq, ↓reduceIte, text]
      rfl
    · exact fun f hm typed indent first => walkEntry_xml ih hm typed indent first

/-- Redacted XML is what the XML writer makes of the shadow of a message. -/
theorem redactedToString_xml {t : Fin n} (message : (P.desc t).mapEntry = false) {m : Slots}
    (typed : Typed P t m) :
    redactedToString F P (shouldRedact true pairs) .xml t m =
      toXml F (shadowPool P pairs) t (shadowFields P pairs t (P.desc t).fields m) := by
  have values : ∀ v, XmlShadow F P pairs v := xmlShadow
  have text := walkFields_xml message _ (fun f hf => hf) (fun _ _ v _ => values v) typed 0 true
  simp only [redactedToString, braced, reduceCtorEq, ↓reduceIte, text]
  rfl

end Xml

end Harpia
