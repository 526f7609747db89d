import Harpia.RedactedYaml

namespace Harpia

open Text Reflection Markup

variable {n : Nat}

section Placeholder

variable (F : FloatText) (P : Pool n) (lang : Lang)

/-- The content of a redacted element. -/
def placeholderItems : List Item := placeholderText.map Item.char

/-- What a field holds after the element with the placeholder was read. -/
def placedElement (f : Field n) : List Value :=
  match f.type.messageType? with
  | none => placedText F lang f
  | some s =>
    match lang, (P.desc s).mapEntry, (P.desc s).fields with
    | .python, true, [kf, vf] =>
      [.message [[entryScalar F .python kf placeholderItems],
        [vf.type.messageType?.elim (entryScalar F .python vf placeholderItems) fun v =>
          .message (P.new v)]]]
    | _, _, _ => [.message (P.new s)]

/-- What a `phi` field holds after redacted XML was read. -/
def xmlFill (f : Field n) (slot : List Value) : List Value :=
  if visible f slot then placedElement F P lang f else f.initial

theorem textItems_placeholder : textItems F (.string : CppType n) (.text placeholderText) =
    placeholderItems := by
  have clean : normalizeEnds placeholderText = placeholderText := normalizeEnds_eq_self (by decide)
  have text : scalarText F (.string : CppType n) (.text placeholderText) = placeholderText := rfl
  rw [textItems, text, clean, placeholderItems]

variable {F P lang}

theorem readMessage_chars (s : Fin n) (cs : List Char) (m : Slots) :
    Xml.readMessage F P lang s (cs.map Item.char) m = m := by
  induction cs with
  | nil => rw [List.map_nil, Xml.readMessage]
  | cons c cs ih => rw [List.map_cons, Xml.readMessage, Xml.readChild, ih]

theorem readNamed_chars (s : Fin n) (name cs : List Char) :
    Xml.readNamed F P lang s name (cs.map Item.char) = P.new s := by
  induction cs with
  | nil => rw [List.map_nil, Xml.readNamed]
  | cons c cs ih => rw [List.map_cons, Xml.readNamed, Xml.readIfNamed, ih]

theorem readChild_placeholder {t : Fin n} {f : Field n} {a b : Slots}
    (hf : (P.desc t).fields[a.length]? = some f) :
    Xml.readChild F P lang t (.element f.name placeholderItems) (a ++ f.initial :: b) =
      a ++ placedElement F P lang f :: b := by
  have text : getText placeholderItems = some placeholderText := by decide
  unfold placedElement
  cases hs : f.type.messageType? with
  | none =>
    simp only [Xml.readChild, P.find?_name t hf, hs, storeText, text, scalarOfText, placedText]
    cases parseScalar F lang f.type placeholderText with
    | none => rfl
    | some x =>
      by_cases many : f.repeated
      · have unset : f.initial = [] := by simp [Field.initial, many]
        simp [many, unset, modify_mid]
      · simp [many]
  | some s =>
    have inner : Xml.readMessage F P lang s placeholderItems (P.new s) = P.new s :=
      readMessage_chars s _ _
    have mem := List.mem_of_getElem? hf
    by_cases entry : lang = .python ∧ (P.desc s).mapEntry
    · obtain ⟨rfl, entry⟩ := entry
      have many : f.repeated := P.map_repeated t f mem s (CppType.eq_message hs) entry
      have unset : f.initial = [] := by simp [Field.initial, many]
      have hm : P.isMap f := by rw [isMap_of_messageType hs, entry]
      obtain ⟨-, kf, vf, hfields, -⟩ := Pool.isMap_fields hm hs
      have named : ∀ v, Xml.readNamed F P .python v vf.name placeholderItems = P.new v :=
        fun v => readNamed_chars v _ _
      rw [readChild_entry hf hs entry hfields, unset, modify_mid]
      simp [entry, hfields, putEntry, named]
    · have plain : lang = .cpp ∨ (P.desc s).mapEntry = false := by
        cases lang with
        | cpp => exact .inl rfl
        | python => exact .inr (by simpa using entry)
      have placed : (match lang, (P.desc s).mapEntry, (P.desc s).fields with
          | .python, true, [kf, vf] =>
            [Value.message [[entryScalar F .python kf placeholderItems],
              [vf.type.messageType?.elim (entryScalar F .python vf placeholderItems) fun v =>
                .message (P.new v)]]]
          | _, _, _ => [.message (P.new s)]) = [.message (P.new s)] := by
        split
        next h _ => exact absurd ⟨rfl, h⟩ entry
        next => rfl
      rw [readChild_message hf hs plain]
      refine Eq.trans ?_ (congrArg (a ++ · :: b) placed.symm)
      by_cases many : f.repeated
      · have unset : f.initial = [] := by simp [Field.initial, many]
        rw [if_pos many, unset, modify_mid, inner, List.nil_append]
      · have single : f.repeated = false := by simpa using many
        have presence := P.presence_message t f mem single (by simp [CppType.isMessage, hs])
        have unset : f.initial = [] := by simp [Field.initial, presence]
        have target : P.mutableMessage f a.length (a ++ f.initial :: b) = some (P.new s) := by
          simp [Pool.mutableMessage, hs, single, unset]
        rw [if_neg many, target, Option.getD_some, inner, set_mid]

end Placeholder

section Reading

variable (F : FloatText) (P : Pool n) (lang : Lang) (pairs : List (List Char × List Char))

/-- What is read back of the shadow of a value: a message from its elements, and an entry of a
map. -/
structure ShadowReread (v : Value) : Prop where
  message : ∀ s slots, v = .message slots → TypedFields P s (P.desc s).fields slots →
    textsAll noReturn (shadowFields P pairs s (P.desc s).fields slots) →
    Xml.readMessage F P lang s (elementsOf F (shadowPool P pairs) ((shadowPool P pairs).desc s).fields
        (shadowFields P pairs s (P.desc s).fields slots)) (P.new s) =
      filledFields P pairs (xmlFill F P lang) s (P.desc s).fields slots
  entry : ∀ t i f, (P.desc t).fields[i]? = some f → P.isMap f → TypedValue P f.type v →
    valueAll noReturn (shadowValue P pairs f.type v) → lang = .python → ∀ m,
    Xml.readChild F P lang t (.element f.name (valueContent F (shadowPool P pairs) (shadowType f.type)
        (shadowValue P pairs f.type v))) m =
      m.modify i fun es =>
        putEntry es (recastValue P pairs (xmlFill F P lang) (fun _ x => x) f.type v)

variable {F P lang pairs}

/-- The characters of a value's shadow are those of the value. -/
theorem textItems_shadow (ty : CppType n) (x : Scalar) :
    textItems F (shadowType ty) (shadowScalar ty x) = textItems F ty x := by
  have text : scalarText F (shadowType ty) (shadowScalar ty x) = scalarText F ty x := by
    cases ty <;> cases x <;> rfl
  rw [textItems, textItems, text]

theorem noReturn_shadow {ty : CppType n} {x : Scalar} (h : CanHold ty x)
    (clean : scalarAll noReturn (shadowScalar ty x)) : scalarAll noReturn x := by
  cases ty <;> cases x <;> first | exact clean | rfl

/-- Any value of a field that is shown, but an entry that the Python reader takes apart. -/
theorem readChild_shadow {t : Fin n} {f : Field n} {a b : Slots}
    (hf : (P.desc t).fields[a.length]? = some f) {v : Value}
    (plain : lang = .cpp ∨ P.isMap f = false) (back : ShadowReread F P lang pairs v)
    (typed : TypedValue P f.type v) (clean : valueAll noReturn (shadowValue P pairs f.type v))
    {es : List Value} (start : f.repeated = false → es = f.initial) :
    Xml.readChild F P lang t (.element f.name (valueContent F (shadowPool P pairs) (shadowType f.type)
        (shadowValue P pairs f.type v))) (a ++ es :: b) =
      a ++ ((if f.repeated then es else []) ++
        [recastValue P pairs (xmlFill F P lang) (fun _ x => x) f.type v]) :: b := by
  cases v with
  | scalar x =>
    rw [TypedValue] at typed
    rw [shadowValue, recastValue, valueAll] at clean
    have content : valueContent F (shadowPool P pairs) (shadowType f.type)
        (shadowValue P pairs f.type (.scalar x)) = valueContent F P f.type (.scalar x) := by
      rw [shadowValue, recastValue, valueContent, valueContent, textItems_shadow]
    rw [content, readChild_scalar hf typed (noReturn_shadow typed clean), recastValue]
    split
    · rw [modify_mid]
    · rw [set_mid, List.nil_append]
  | message slots =>
    obtain ⟨s, hs, fields⟩ := typed_message typed
    have other : lang = .cpp ∨ (P.desc s).mapEntry = false := by
      rcases plain with cpp | noMap
      · exact .inl cpp
      · exact .inr (notEntry_of_notMap noMap hs)
    simp only [recastValue, hs, valueAll] at clean
    have read := back.message s slots rfl fields clean
    rw [readChild_message hf hs other]
    simp only [recastValue, hs, valueContent, messageType?_shadowType, read]
    by_cases many : f.repeated
    · rw [if_pos many, if_pos many, modify_mid]
    · have single : f.repeated = false := by simpa using many
      have presence := P.presence_message t f (List.mem_of_getElem? hf) single
        (by simp [CppType.isMessage, hs])
      have unset : es = [] := by simp [start single, Field.initial, presence]
      have target : P.mutableMessage f a.length (a ++ es :: b) = some (P.new s) := by
        simp [Pool.mutableMessage, hs, single, unset]
      rw [if_neg many, if_neg many, target, Option.getD_some, read, set_mid, List.nil_append]

theorem readChild_shadowItem {t : Fin n} {f : Field n} {a b : Slots}
    (hf : (P.desc t).fields[a.length]? = some f) (many : f.repeated) {v : Value}
    (back : ShadowReread F P lang pairs v) (typed : TypedValue P f.type v)
    (clean : valueAll noReturn (shadowValue P pairs f.type v)) {es : List Value}
    (fresh : P.isMap f → entryKey v ∉ es.map entryKey) :
    Xml.readChild F P lang t (.element f.name (valueContent F (shadowPool P pairs) (shadowType f.type)
        (shadowValue P pairs f.type v))) (a ++ es :: b) =
      a ++ (es ++ [recastValue P pairs (xmlFill F P lang) (fun _ x => x) f.type v]) :: b := by
  by_cases hm : P.isMap f ∧ lang = .python
  · have key : entryKey (recastValue P pairs (xmlFill F P lang) (fun _ x => x) f.type v) =
        entryKey v := recast_entryKey hm.1 typed
    rw [back.entry t a.length f hf hm.1 typed clean hm.2, modify_mid,
      putEntry_new (key ▸ fresh hm.1)]
  · have plain : lang = .cpp ∨ P.isMap f = false := by
      cases lang with
      | cpp => exact .inl rfl
      | python => exact .inr (by simpa using hm)
    rw [readChild_shadow hf plain back typed clean (fun single => by simp [many] at single),
      if_pos many]

theorem readMessage_shadowItems {t : Fin n} {f : Field n} {a b : Slots}
    (hf : (P.desc t).fields[a.length]? = some f) (many : f.repeated) {vs : List Value}
    (back : ∀ v ∈ vs, ShadowReread F P lang pairs v) (typed : TypedItems P f.type vs)
    (clean : itemsAll noReturn (shadowItems P pairs f.type vs)) {es : List Value}
    (fresh : P.isMap f → (es.map entryKey ++ vs.map entryKey).Nodup) :
    Xml.readMessage F P lang t (itemElements F (shadowPool P pairs)
        { f with type := shadowType f.type } (shadowItems P pairs f.type vs)) (a ++ es :: b) =
      a ++ (es ++ filledItems P pairs (xmlFill F P lang) f.type vs) :: b := by
  induction vs generalizing es with
  | nil =>
    rw [shadowItems, recastItems, filledItems, recastItems, itemElements, Xml.readMessage,
      List.append_nil]
  | cons v vs ih =>
    obtain ⟨here, below⟩ := List.forall_mem_cons.mp back
    rw [TypedItems] at typed
    rw [shadowItems, recastItems, itemsAll, Bool.and_eq_true] at clean
    have new : P.isMap f → entryKey v ∉ es.map entryKey := fun hm hmem =>
      (List.nodup_append.mp (fresh hm)).2.2 _ hmem _ List.mem_cons_self rfl
    have later : P.isMap f → ((es ++ [recastValue P pairs (xmlFill F P lang) (fun _ x => x) f.type
        v]).map entryKey ++ vs.map entryKey).Nodup := by
      intro hm
      have key : entryKey (recastValue P pairs (xmlFill F P lang) (fun _ x => x) f.type v) =
          entryKey v := recast_entryKey hm typed.1
      simpa [key] using fresh hm
    have item := readChild_shadowItem (b := b) hf many here typed.1 clean.1 new
    have rest := ih below typed.2 clean.2 later
    rw [shadowItems, recastItems, filledItems, recastItems, itemElements, Xml.readMessage]
    rw [List.append_assoc, List.singleton_append] at rest
    exact (congrArg _ item).trans rest

theorem readMessage_shadowField {t : Fin n} {f : Field n} {a b : Slots}
    (hf : (P.desc t).fields[a.length]? = some f) {slot : List Value}
    (back : ∀ v ∈ slot, ShadowReread F P lang pairs v) (shape : SlotShape P t f slot)
    (typed : TypedItems P f.type slot)
    (clean : itemsAll noReturn
      (if hides P pairs t f then shadowFill f slot else shadowItems P pairs f.type slot)) :
    Xml.readMessage F P lang t (fieldElements F (shadowPool P pairs) (shadowField P pairs t f)
        (if hides P pairs t f then shadowFill f slot else shadowItems P pairs f.type slot))
        (a ++ f.initial :: b) =
      a ++ (if hides P pairs t f then xmlFill F P lang f slot
        else filledItems P pairs (xmlFill F P lang) f.type slot) :: b := by
  by_cases hidden : hides P pairs t f
  · rw [if_pos hidden, if_pos hidden, shadowField_hidden hidden]
    unfold shadowFill xmlFill
    by_cases shown : visible f slot
    · rw [if_pos shown, if_pos shown, fieldElements, valueContent, textItems_placeholder,
        if_neg (by simp), Xml.readMessage, Xml.readMessage, readChild_placeholder hf]
    · rw [if_neg shown, if_neg shown]
      have presence : f.presence := by
        simp only [visible, Bool.or_eq_true, Bool.not_eq_true', not_or, Bool.not_eq_false] at shown
        exact shown.1.2
      rw [fieldElements, if_pos (by simp [presence]), Xml.readMessage]
  · rw [if_neg hidden] at clean ⊢
    rw [if_neg hidden, shadowField_plain hidden]
    by_cases many : f.repeated
    · have unset : f.initial = [] := by simp [Field.initial, many]
      have items : fieldElements F (shadowPool P pairs) { f with type := shadowType f.type }
          (shadowItems P pairs f.type slot) = itemElements F (shadowPool P pairs)
            { f with type := shadowType f.type } (shadowItems P pairs f.type slot) := by
        cases slot with
        | nil => simp [recastItems, fieldElements, itemElements, many]
        | cons v vs => rw [shadowItems, recastItems, fieldElements, itemElements, if_pos many]
      have keys : P.isMap f → (([] : List Value).map entryKey ++ slot.map entryKey).Nodup := shape.keys
      rw [items, unset, readMessage_shadowItems hf many back typed clean keys, List.nil_append]
    · have single : f.repeated = false := by simpa using many
      cases slot with
      | nil =>
        have presence := (shape.unset single rfl).1
        have unset : f.initial = [] := by simp [Field.initial, presence]
        rw [shadowItems, recastItems, filledItems, recastItems, fieldElements,
          if_pos (by simp [presence]), Xml.readMessage, unset]
      | cons v vs =>
        obtain ⟨here, -⟩ := List.forall_mem_cons.mp back
        have alone : vs = [] := by
          have short := shape.single single
          simpa using short
        subst alone
        rw [TypedItems] at typed
        rw [shadowItems, recastItems, itemsAll, Bool.and_eq_true] at clean
        have noMap : P.isMap f = false := by
          by_contra hm
          exact many (P.isMap_repeated (List.mem_of_getElem? hf) (by simpa using hm))
        rw [shadowItems, recastItems, filledItems, recastItems, recastItems, recastItems, fieldElements,
          if_neg many, Xml.readMessage, Xml.readMessage]
        have child := readChild_shadow (b := b) hf (.inr noMap) here typed.1 clean.1 (fun _ => rfl)
        rw [if_neg many, List.nil_append] at child
        exact child

/-- The elements of a message's shadow are read back into it, from any field on. -/
theorem readMessage_shadow {t : Fin n} (doneF todoF : List (Field n)) (done todoS : Slots)
    (hfields : (P.desc t).fields = doneF ++ todoF) (hlen : doneF.length = done.length)
    (back : ∀ slot ∈ todoS, ∀ v ∈ slot, ShadowReread F P lang pairs v)
    (typed : TypedFields P t todoF todoS)
    (clean : textsAll noReturn (shadowFields P pairs t todoF todoS)) :
    Xml.readMessage F P lang t (elementsOf F (shadowPool P pairs) (todoF.map (shadowField P pairs t))
        (shadowFields P pairs t todoF todoS)) (done ++ todoF.map Field.initial) =
      done ++ filledFields P pairs (xmlFill F P lang) t todoF todoS := by
  induction todoS generalizing doneF todoF done with
  | nil =>
    cases todoF with
    | nil => simp [recastFields, elementsOf, Xml.readMessage]
    | cons f todoF => exact absurd typed (by simp [TypedFields])
  | cons slot todoS ih =>
    cases todoF with
    | nil => exact absurd typed (by simp [TypedFields])
    | cons f todoF =>
      obtain ⟨here, below⟩ := List.forall_mem_cons.mp back
      rw [TypedFields] at typed
      rw [shadowFields, recastFields, textsAll, Bool.and_eq_true] at clean
      have hf : (P.desc t).fields[done.length]? = some f := by
        rw [hfields, ← hlen]
        simp
      have field := readMessage_shadowField (b := todoF.map Field.initial) hf here typed.1
        typed.2.1 clean.1
      have rest := fun filled => ih (doneF ++ [f]) todoF (done ++ [filled]) (by simp [hfields])
        (by simp [hlen]) below typed.2.2 clean.2
      rw [List.map_cons, List.map_cons, shadowFields, recastFields, filledFields, recastFields,
        elementsOf, readMessage_append]
      have next := rest (if hides P pairs t f then xmlFill F P lang f slot
        else filledItems P pairs (xmlFill F P lang) f.type slot)
      rw [List.append_assoc, List.append_assoc, List.singleton_append, List.singleton_append] at next
      exact (congrArg _ field).trans next

theorem shadowReread (v : Value) : ShadowReread F P lang pairs v := by
  induction v using Value.induct with
  | scalar x =>
    constructor
    · intro s slots h
      exact absurd h (by simp)
    · intro t i f _ hm typed
      obtain ⟨s, kf, vf, k, w, -, -, h, -⟩ := typed_entry hm typed
      exact absurd h (by simp)
  | message slots ih =>
    constructor
    · intro s slots' h typed clean
      obtain rfl := Value.message.inj h
      exact readMessage_shadow [] _ [] slots rfl rfl ih typed clean
    · intro t i f hf hm typed clean hl m
      subst hl
      obtain ⟨s, kf, vf, k, w, hs, hfields, he, hk, hw, hkr, hvr⟩ := typed_entry hm typed
      obtain rfl := Value.message.inj he
      have mapEntry := (Pool.isMap_fields hm hs).1
      obtain ⟨shadow, hkey, hvalue, -⟩ := entry_shadow pairs hm hs hfields
      rw [shadowValue, recastValue_entry hs mapEntry hfields] at clean ⊢
      simp only [valueAll, textsAll, itemsAll, Bool.and_true, Bool.and_eq_true] at clean
      have content : valueContent F (shadowPool P pairs) (shadowType f.type)
          (.message [[.scalar (shadowScalar kf.type k)], [shadowValue P pairs vf.type w]]) =
          [.element kf.name (textItems F kf.type k),
            .element vf.name (valueContent F (shadowPool P pairs) (shadowType vf.type)
              (shadowValue P pairs vf.type w))] := by
        simp [valueContent, messageType?_shadowType, hs, shadow, elementsOf, fieldElements, hkr, hvr,
          textItems_shadow]
      have apart : kf.name ≠ vf.name := by
        rw [hkey, hvalue]
        decide
      rw [content, readChild_entry hf hs mapEntry hfields,
        entryScalar_key hk (noReturn_shadow hk clean.1), recastValue_entry hs mapEntry hfields]
      cases w with
      | scalar x =>
        rw [TypedValue] at hw
        rw [recastValue, valueAll] at clean
        simp only [canHold_notMessage hw, Option.elim_none, entryScalar, entryText, findElement,
          apart, ↓reduceIte, Option.bind_some, recastValue, valueContent, textItems_shadow,
          scalarOfText_textItems hw (noReturn_shadow hw clean.2), Option.getD_some]
      | message inner =>
        obtain ⟨v, hv, fields⟩ := typed_message hw
        simp only [recastValue, hv, valueAll] at clean
        have read := (ih [.message inner] (by simp) (.message inner) (by simp)).message v inner rfl
          fields clean.2
        simp only [hv, Option.elim_some, Xml.readNamed, Xml.readIfNamed, apart, ↓reduceIte,
          recastValue, valueContent, messageType?_shadowType, read]

variable (pairs) in
theorem named_shadow (named : Named P) : Named (shadowPool P pairs) := by
  refine ⟨named.types, fun t f hf => ?_⟩
  obtain ⟨g, hg, rfl⟩ := List.mem_map.mp hf
  rw [shadowField_name]
  exact named.fields t g hg

/-- Redacted XML is read into the message with its visible `phi` fields filled in from the
placeholder, where the parser finds the elements of the shadow. -/
theorem fromXml_shadow {parse : List Char → Option Item} {t : Fin n} {m : Slots}
    (root : parse (toXml F (shadowPool P pairs) t (shadowFields P pairs t (P.desc t).fields m)) =
      some (.element (P.desc t).name (elementsOf F (shadowPool P pairs)
        ((shadowPool P pairs).desc t).fields (shadowFields P pairs t (P.desc t).fields m))))
    (typed : Typed P t m) (clean : textsAll noReturn (shadowFields P pairs t (P.desc t).fields m)) :
    fromXml F P lang parse t
      (toXml F (shadowPool P pairs) t (shadowFields P pairs t (P.desc t).fields m)) (P.new t) =
      (true, filledFields P pairs (xmlFill F P lang) t (P.desc t).fields m) := by
  have values : ∀ v, ShadowReread F P lang pairs v := shadowReread
  have read := readMessage_shadow [] (P.desc t).fields [] m rfl rfl (fun _ _ v _ => values v) typed
    clean
  rw [List.nil_append, List.nil_append] at read
  rw [fromXml, root, ← read]
  rfl

end Reading

end Harpia
