import Harpia.Tinyxml2
import Harpia.YamlTexts

namespace Harpia

open Text Reflection Markup

variable {n : Nat}

section Restore

variable (F : FloatText) (P : Pool n) (pairs : List (List Char × List Char))

/-- What `from_xml` parses a document with: ElementTree, or tinyxml2. -/
def xmlParser (elementTree : List Char → Option Item) : Lang → List Char → Option Item
  | .python => elementTree
  | .cpp => Tinyxml2.parse

/-- `from_string`; JSON is left to protobuf's own parser. -/
def fromString (elementTree : List Char → Option Item)
    (fromJson : Lang → Fin n → List Char → Slots → Bool × Slots) (lang : Lang) (fmt : Format)
    (t : Fin n) (text : List Char) (m : Slots) : Except Fault (Bool × Slots) :=
  match fmt with
  | .xml => .ok (fromXml F P lang (xmlParser elementTree lang) t text m)
  | .yaml => fromYaml F P lang t text m
  | .json => .ok (fromJson lang t text m)

/-- A field that is as in a new message after the placeholder was read for it: one whose value the
placeholder is none of, or a number that it is read as the default of. -/
def resets (fmt : Format) (f : Field n) : Bool :=
  match f.type with
  | .string | .double | .float => false
  | .message _ => fmt = .yaml
  | .enum e => (e.values.find? fun v => v.2 = 0).isNone ||
      !f.repeated && !f.presence && decide (f.type.default = .int 0)
  | _ => !f.repeated && !f.presence

/-- A text that is read back as it was from a redacted document. -/
def restoredText (lang : Lang) (fmt : Format) (s : List Char) : Bool :=
  match fmt, lang with
  | .xml, .cpp => Tinyxml2.keptText s
  | .xml, .python => legalText s && noReturn s
  | _, _ => readableText s

/-- The messages that redaction leaves readable. -/
def Restorable (lang : Lang) (fmt : Format) (t : Fin n) (m : Slots) : Bool :=
  textsAll (restoredText lang fmt) (clearPhi P pairs t m) &&
    phiAll P pairs (fun f slot => !visible f slot || resets fmt f) t (P.desc t).fields m &&
    (decide (fmt = .xml ∧ lang = .cpp → nestedAll (shadowFields P pairs t (P.desc t).fields m) + 2 <
      Tinyxml2.maxElementDepth))

end Restore

section Placed

variable {F : FloatText} {P : Pool n} {lang : Lang}

theorem eq_initial_iff {f : Field n} {x : Scalar} :
    [Value.scalar x] = f.initial ↔
      f.repeated = false ∧ f.presence = false ∧ x = f.type.default := by
  unfold Field.initial
  cases f.repeated <;> cases f.presence <;> simp

theorem toLl_placeholder (lang : Lang) : toLl lang placeholderText = 0 := by
  cases lang <;> decide

theorem toUll_placeholder (lang : Lang) : toUll lang placeholderText = 0 := by
  cases lang <;> decide

/-- No floating-point field has a value. -/
theorem typed_notFloat {t : Fin n} {f : Field n} {slot : List Value} (shape : SlotShape P t f slot)
    (typed : TypedItems P f.type slot) (kind : f.type = .double ∨ f.type = .float)
    (single : f.repeated = false) : f.presence := by
  cases slot with
  | nil => exact (shape.unset single rfl).1
  | cons v vs =>
    rw [TypedItems] at typed
    cases v <;> rcases kind with kind | kind <;>
      simp [kind, TypedValue, CanHold, CppType.messageType?] at typed

/-- The placeholder leaves a scalar field as it was if it is no value of its type, or is read as its
default. -/
theorem placedText_eq_iff {t : Fin n} {f : Field n} {slot : List Value} (shape : SlotShape P t f slot)
    (typed : TypedItems P f.type slot) (scalar : f.type.messageType? = none) (fmt : Format) :
    placedText F lang f = f.initial ↔ resets fmt f := by
  have float : f.type = .double ∨ f.type = .float → ∀ x, [Value.scalar x] ≠ f.initial := by
    intro kind x he
    obtain ⟨single, absent, -⟩ := eq_initial_iff.mp he
    rw [typed_notFloat shape typed kind single] at absent
    exact absurd absent (by decide)
  cases hty : f.type with
  | message s => simp [hty, CppType.messageType?] at scalar
  | double => simp [placedText, resets, hty, parseScalar, float (.inl hty)]
  | float => simp [placedText, resets, hty, parseScalar, float (.inr hty)]
  | enum e =>
    have text : (e.values.find? fun v => v.1 = placeholderText) = none := by
      refine List.find?_eq_none.mpr fun v hv he => ?_
      have word := e.names_word v hv
      rw [decide_eq_true_eq.mp he] at word
      exact absurd word (by decide)
    simp only [placedText, resets, hty, parseScalar, text, toLl_placeholder]
    have zero : wrap32 0 = 0 := by decide
    rw [zero]
    cases hz : e.values.find? fun v => v.2 = 0 with
    | none => simp
    | some v =>
      have number : v.2 = 0 := by simpa using List.find?_some hz
      simp only [Option.map_some, number]
      rw [eq_initial_iff, @eq_comm _ (Scalar.int 0)]
      simp [hty, and_assoc]
  | string =>
    have text : Scalar.text placeholderText ≠ .text [] := by decide
    simp [placedText, resets, hty, parseScalar, eq_initial_iff, CppType.default, text]
  | bool =>
    have other : placeholderText ≠ ['t', 'r', 'u', 'e'] ∧ placeholderText ≠ ['1'] := by decide
    simp [placedText, resets, hty, parseScalar, eq_initial_iff, CppType.default, other]
  | _ =>
    simp [placedText, resets, hty, parseScalar, eq_initial_iff, CppType.default, toLl_placeholder,
      toUll_placeholder, wrap32]

theorem yamlFill_eq_iff {t : Fin n} {f : Field n} {slot : List Value} (shape : SlotShape P t f slot)
    (typed : TypedItems P f.type slot) :
    yamlFill F lang f slot = f.initial ↔ (!visible f slot || resets .yaml f) := by
  unfold yamlFill
  by_cases shown : visible f slot
  · rw [if_pos shown, shown, Bool.not_true, Bool.false_or]
    cases hs : f.type.messageType? with
    | none => exact placedText_eq_iff shape typed hs .yaml
    | some s =>
      have type := CppType.eq_message hs
      simp [placedText, resets, type, parseScalar]
  · simp [shown]

theorem xmlFill_eq_iff {t : Fin n} {f : Field n} (hf : f ∈ (P.desc t).fields) {slot : List Value}
    (shape : SlotShape P t f slot) (typed : TypedItems P f.type slot) :
    xmlFill F P lang f slot = f.initial ↔ (!visible f slot || resets .xml f) := by
  unfold xmlFill
  by_cases shown : visible f slot
  · rw [if_pos shown, shown, Bool.not_true, Bool.false_or]
    cases hs : f.type.messageType? with
    | none =>
      have text : placedText F lang f = f.initial ↔ resets .xml f :=
        placedText_eq_iff shape typed hs .xml
      simpa [placedElement, hs] using text
    | some s =>
      have type := CppType.eq_message hs
      have unset : f.initial = [] := by
        by_cases many : f.repeated
        · simp [Field.initial, many]
        · have presence := P.presence_message t f hf (by simpa using many)
            (by simp [CppType.isMessage, hs])
          simp [Field.initial, presence]
      have held : placedElement F P lang f ≠ [] := by
        simp only [placedElement, hs]
        split <;> simp
      simp [unset, held, resets, type]
  · simp [shown]

end Placed

section RoundTrip

variable {F : FloatText} {P : Pool n} {pairs : List (List Char × List Char)}

/-- Texts of a kind that the placeholder and every name are of are all of that kind in the shadow, if
they are in what is to be restored. -/
theorem shadow_texts {p : List Char → Bool} (mark : p placeholderText) (names : ∀ s, isName s → p s)
    {t : Fin n} {m : Slots} (typed : Typed P t m) (h : textsAll p (clearPhi P pairs t m)) :
    textsAll p (shadowFields P pairs t (P.desc t).fields m) := by
  refine recast_texts (fun f slot _ => ?_) (fun ty x hx hp => ?_) typed h
  · unfold shadowFill
    split
    · exact itemsAll_single mark
    · rfl
  · cases ty with
    | enum e =>
      cases x <;> simp only [CanHold] at hx
      exact names _ (find?_enumName hx).2
    | _ => exact hp

theorem fromYaml_redacted_iff (keys : KeysShown pairs) {t : Fin n}
    (message : (P.desc t).mapEntry = false) (keyed : KeyedFrom P t) {m : Slots} (typed : Typed P t m)
    (lang : Lang) :
    fromYaml F P lang t (redactedToString F P (shouldRedact true pairs) .yaml t m) (P.new t) =
        .ok (true, clearPhi P pairs t m) ↔
      textsAll readableText (clearPhi P pairs t m) ∧
        phiAll P pairs (fun f slot => !visible f slot || resets .yaml f) t (P.desc t).fields m := by
  -- no text that is read has an unreadable character
  have readable : fromYaml F P lang t (redactedToString F P (shouldRedact true pairs) .yaml t m)
      (P.new t) = .ok (true, clearPhi P pairs t m) → textsAll readableText (clearPhi P pairs t m) :=
    fun h => fromYaml_readable (redactedToString_readable typed) (new_readable P t) h
  have filled : textsAll readableText (clearPhi P pairs t m) →
      fromYaml F P lang t (redactedToString F P (shouldRedact true pairs) .yaml t m) (P.new t) =
        .ok (true, filledFields P pairs (yamlFill F lang) t (P.desc t).fields m) := by
    intro texts
    have shadow := shadow_texts (by decide) (fun s hs => readableText_name hs) typed texts
    rw [redactedToString_yaml message typed shadow]
    exact fromYaml_shadow keys message keyed typed
  have alike : filledFields P pairs (yamlFill F lang) t (P.desc t).fields m = clearPhi P pairs t m ↔
      phiAll P pairs (fun f slot => !visible f slot || resets .yaml f) t (P.desc t).fields m :=
    recast_eq_iff (fun t f _ slot shape items => yamlFill_eq_iff shape items) typed
  constructor
  · intro h
    have texts := readable h
    rw [filled texts] at h
    exact ⟨texts, alike.mp (Prod.mk.inj (Except.ok.inj h)).2⟩
  · rintro ⟨texts, phi⟩
    rw [filled texts]
    exact congrArg (fun r => Except.ok (true, r)) (alike.mpr phi)

theorem xmlFilled_iff {t : Fin n} {m : Slots} (typed : Typed P t m) (lang : Lang) :
    filledFields P pairs (xmlFill F P lang) t (P.desc t).fields m = clearPhi P pairs t m ↔
      phiAll P pairs (fun f slot => !visible f slot || resets .xml f) t (P.desc t).fields m :=
  recast_eq_iff (fun _ _ hf _ shape items => xmlFill_eq_iff hf shape items) typed

/-- Texts of a kind that a parser passes on are all that is read back. -/
theorem restored_texts {p : List Char → Bool} (empty : p []) {parse : List Char → Option Item}
    (leads : ∀ text name content, parse text = some (.element name content) → leadsAll p content)
    {lang : Lang} {t : Fin n} {text : List Char} {m : Slots}
    (h : fromXml F P lang parse t text (P.new t) = (true, m)) : textsAll p m := by
  have read : textsAll p (fromXml F P lang parse t text (P.new t)).2 :=
    fromXml_texts empty (leads text) (textsAll_new empty P t)
  rwa [h] at read

variable (F pairs) in
theorem fromXml_python_redacted_iff {parse : List Char → Option Item} (named : Named P)
    (processor : Processor parse) {t : Fin n} (message : (P.desc t).mapEntry = false) {m : Slots}
    (typed : Typed P t m) :
    fromXml F P .python parse t (redactedToString F P (shouldRedact true pairs) .xml t m) (P.new t) =
        (true, clearPhi P pairs t m) ↔
      textsAll (fun s => legalText s && noReturn s) (clearPhi P pairs t m) ∧
        phiAll P pairs (fun f slot => !visible f slot || resets .xml f) t (P.desc t).fields m := by
  have legalName : ∀ s, isName s → legalText s := fun s hs =>
    List.all_eq_true.mpr fun c hc => isXmlChar_of_isWord ((isName_cons hs).2 c hc)
  have cleanName : ∀ s, isName s → noReturn s := fun s hs =>
    decide_eq_true fun hr => ne_of_isWord ((isName_cons hs).2 '\r' hr) (by decide) rfl
  rw [redactedToString_xml message typed]
  -- no parsed document has another character in a text, and none that is parsed has a return
  have legal : fromXml F P .python parse t
      (toXml F (shadowPool P pairs) t (shadowFields P pairs t (P.desc t).fields m)) (P.new t) =
      (true, clearPhi P pairs t m) → textsAll legalText (clearPhi P pairs t m) := by
    refine restored_texts (by decide) fun text name content found => ?_
    have chars : charsAll (fun c => isXmlChar c) content := processor.legal _ _ found
    refine leadsAll_of_chars (fun s hs => ?_) chars
    exact List.all_eq_true.mpr hs
  have root : textsAll legalText (clearPhi P pairs t m) → parse (toXml F (shadowPool P pairs) t
      (shadowFields P pairs t (P.desc t).fields m)) = some (.element (P.desc t).name
        (elementsOf F (shadowPool P pairs) ((shadowPool P pairs).desc t).fields
          (shadowFields P pairs t (P.desc t).fields m))) := fun texts =>
    processor.conforms _ _ _ (content_toXml (named_shadow pairs named) (typed_shadow typed)
      (shadow_texts (by decide) legalName typed texts))
  have clean : fromXml F P .python parse t
      (toXml F (shadowPool P pairs) t (shadowFields P pairs t (P.desc t).fields m)) (P.new t) =
      (true, clearPhi P pairs t m) → textsAll noReturn (clearPhi P pairs t m) := by
    intro h
    have items := elementsOf_noReturn (F := F) (P := shadowPool P pairs)
      ((shadowPool P pairs).desc t).fields
      (fun slot (_ : slot ∈ shadowFields P pairs t (P.desc t).fields m) v _ => passesClean v)
    rw [fromXml, root (legal h)] at h
    rw [← (Prod.mk.inj h).2]
    exact readMessage_texts (fun x hx => readsTexts (by decide) (leadsAll_iff.mp items.leads x hx)) t
      (textsAll_new (by decide) P t)
  rw [textsAll_and]
  constructor
  · intro h
    have lawful := legal h
    have texts := clean h
    rw [fromXml_shadow (root lawful) typed (shadow_texts (by decide) cleanName typed texts)] at h
    exact ⟨⟨lawful, texts⟩, (xmlFilled_iff typed .python).mp (Prod.mk.inj h).2⟩
  · rintro ⟨⟨texts, cleanTexts⟩, phi⟩
    rw [fromXml_shadow (root texts) typed (shadow_texts (by decide) cleanName typed cleanTexts),
      (xmlFilled_iff typed .python).mpr phi]

variable (F pairs) in
theorem fromXml_cpp_redacted_iff (named : Named P) {t : Fin n}
    (message : (P.desc t).mapEntry = false) {m : Slots} (typed : Typed P t m) :
    fromXml F P .cpp Tinyxml2.parse t (redactedToString F P (shouldRedact true pairs) .xml t m)
        (P.new t) = (true, clearPhi P pairs t m) ↔
      textsAll Tinyxml2.keptText (clearPhi P pairs t m) ∧
        phiAll P pairs (fun f slot => !visible f slot || resets .xml f) t (P.desc t).fields m ∧
        nestedAll (shadowFields P pairs t (P.desc t).fields m) + 2 < Tinyxml2.maxElementDepth := by
  have name : ∀ s, isName s → Tinyxml2.keptText s := fun s hs =>
    keptText_plain fun c hc => by simp [plainChar, (isName_cons hs).2 c hc]
  rw [redactedToString_xml message typed]
  have kept : fromXml F P .cpp Tinyxml2.parse t
      (toXml F (shadowPool P pairs) t (shadowFields P pairs t (P.desc t).fields m)) (P.new t) =
      (true, clearPhi P pairs t m) → textsAll Tinyxml2.keptText (clearPhi P pairs t m) :=
    restored_texts Tinyxml2.keptText_nil fun _ _ _ => Tinyxml2.parse_leads
  have root : textsAll Tinyxml2.keptText (clearPhi P pairs t m) → Tinyxml2.parse
      (toXml F (shadowPool P pairs) t (shadowFields P pairs t (P.desc t).fields m)) =
        if nestedAll (shadowFields P pairs t (P.desc t).fields m) + 2 < Tinyxml2.maxElementDepth then
          some (.element (P.desc t).name (elementsOf F (shadowPool P pairs)
            ((shadowPool P pairs).desc t).fields (shadowFields P pairs t (P.desc t).fields m)))
        else none := fun texts =>
    parse_toXml (named_shadow pairs named) (typed_shadow typed)
      (shadow_texts (by decide) name typed texts)
  have filled : textsAll Tinyxml2.keptText (clearPhi P pairs t m) →
      nestedAll (shadowFields P pairs t (P.desc t).fields m) + 2 < Tinyxml2.maxElementDepth →
      fromXml F P .cpp Tinyxml2.parse t
        (toXml F (shadowPool P pairs) t (shadowFields P pairs t (P.desc t).fields m)) (P.new t) =
        (true, filledFields P pairs (xmlFill F P .cpp) t (P.desc t).fields m) := by
    intro texts shallow
    have found := root texts
    rw [if_pos shallow] at found
    refine fromXml_shadow found typed (textsAll_mono (fun s hs => ?_)
      (shadow_texts (by decide) name typed texts))
    exact decide_eq_true (Tinyxml2.keptText_iff.mp hs).1
  constructor
  · intro h
    have texts := kept h
    have shallow : nestedAll (shadowFields P pairs t (P.desc t).fields m) + 2 <
        Tinyxml2.maxElementDepth := by
      by_contra deep
      rw [fromXml, root texts, if_neg deep] at h
      exact absurd (Prod.mk.inj h).1 (by decide)
    rw [filled texts shallow] at h
    exact ⟨texts, (xmlFilled_iff typed .cpp).mp (Prod.mk.inj h).2, shallow⟩
  · rintro ⟨texts, phi, shallow⟩
    rw [filled texts shallow, (xmlFilled_iff typed .cpp).mpr phi]

end RoundTrip

/-- What redaction leaves of a message is read back, with every `phi` field as in a new message,
exactly if no other text has characters that the format or its parser loses, every `phi` field that
is printed is one that its placeholder leaves alone, and tinyxml2 finds no element nested too deep. -/
theorem fromString_redacted_iff (F : FloatText) (P : Pool n) (named : Named P)
    (pairs : List (List Char × List Char)) (elementTree : List Char → Option Item)
    (processor : Processor elementTree)
    (fromJson : Lang → Fin n → List Char → Slots → Bool × Slots)
    (toJson : Lang → Fin n → Slots → List Char) (writer reader : Lang) (fmt : Format)
    (markup : fmt ≠ .json) (t : Fin n) (message : (P.desc t).mapEntry = false)
    (keyed : fmt = .yaml → KeyedFrom P t)
    (keys : fmt = .yaml → KeysShown pairs) (phi : treeHasPhi P pairs t) (m : Slots)
    (typed : Typed P t m) :
    fromString F P elementTree fromJson reader fmt t
        (toString F P toJson writer true pairs fmt t m) (P.new t) =
        .ok (true, clearPhi P pairs t m) ↔ Restorable P pairs reader fmt t m := by
  have redacted : toString F P toJson writer true pairs fmt t m =
      redactedToString F P (shouldRedact true pairs) fmt t m := by
    simp [toString, phi]
  have ok : ∀ {r : Bool × Slots}, (Except.ok r : Except Fault (Bool × Slots)) =
      .ok (true, clearPhi P pairs t m) ↔ r = (true, clearPhi P pairs t m) :=
    ⟨fun h => Except.ok.inj h, fun h => congrArg Except.ok h⟩
  rw [redacted, Restorable, Bool.and_eq_true, Bool.and_eq_true, decide_eq_true_eq]
  cases fmt with
  | json => exact absurd rfl markup
  | yaml =>
    have iff := fromYaml_redacted_iff (F := F) (keys rfl) message (keyed rfl) typed reader
    have texts : restoredText reader .yaml = readableText := by cases reader <;> rfl
    simpa [fromString, texts] using iff
  | xml =>
    cases reader with
    | python =>
      have iff := fromXml_python_redacted_iff F pairs named processor message typed
      have texts : restoredText .python .xml = fun s => legalText s && noReturn s := rfl
      simpa [fromString, xmlParser, texts, ok] using iff
    | cpp =>
      have iff := fromXml_cpp_redacted_iff F pairs named message typed
      have texts : restoredText .cpp .xml = Tinyxml2.keptText := rfl
      simpa [fromString, xmlParser, texts, ok, and_assoc] using iff

/-- A visit has the name and the age of a patient, and may refer to an earlier one. -/
def visitPool : Pool 1 where
  desc _ :=
    { name := ['v', 'i', 's', 'i', 't']
      fields := [{ name := ['H', 'A', 'R', 'P', 'I', 'A', '_', 'I', 'D'], type := .int64 },
        { name := ['n', 'a', 'm', 'e'], type := .string }, { name := ['a', 'g', 'e'], type := .int32 },
        { name := ['p', 'r', 'e', 'v'], type := .message ⟨0, Nat.one_pos⟩, presence := true }] }
  names_word := by decide
  names_nodup := by decide
  presence_repeated := by decide
  presence_message := by decide
  entry := by decide
  map_repeated := by decide

def patientVisit (name : List Char) (age : Int) (prev : List Value) : Slots :=
  [[.scalar (.int 7)], [.scalar (.text name)], [.scalar (.int age)], prev]

def agePhi : List (List Char × List Char) := [(['v', 'i', 's', 'i', 't'], ['a', 'g', 'e'])]

theorem keyedFrom_visitPool : KeyedFrom visitPool 0 := fun _ _ _ => ⟨rfl, rfl, rfl, rfl⟩

theorem named_visitPool : Named visitPool := ⟨by decide, by decide⟩

theorem typed_visit {name : List Char} {age : Int} {prev : List Value}
    (hage : -2 ^ 31 ≤ age ∧ age < 2 ^ 31) (hprev : TypedItems visitPool (.message 0) prev)
    (short : prev.length ≤ 1) : Typed visitPool 0 (patientVisit name age prev) := by
  have one : ∀ f v, SlotShape visitPool 0 f [v] :=
    fun f v => ⟨fun _ => le_rfl, by simp, fun _ => List.nodup_singleton _⟩
  change TypedFields visitPool 0 [_, _, _, _] [_, _, _, _]
  simp only [TypedFields, TypedItems, TypedValue]
  have key : CanHold (.int64 : CppType 1) (.int 7) := by simp [CanHold]
  exact ⟨one _ _, ⟨key, trivial⟩, one _ _, ⟨trivial, trivial⟩, one _ _, ⟨hage, trivial⟩,
    ⟨fun _ => short, fun _ _ => ⟨rfl, rfl⟩, fun h => absurd h (by decide)⟩, hprev, trivial⟩

/-- Two visits; the names have line feeds and quotes in them. -/
def sampleVisit : Slots := patientVisit ['"', '\n'] 40 [.message (patientVisit ['&'] 39 [])]

theorem typed_sampleVisit : Typed visitPool 0 sampleVisit := by
  have first : Typed visitPool 0 (patientVisit ['&'] 39 []) :=
    typed_visit (by decide) (by simp [TypedItems]) (by simp)
  refine typed_visit (by decide) ?_ (by simp)
  simp only [TypedItems, TypedValue, CppType.messageType?]
  exact ⟨first, trivial⟩

def noFromJson : Lang → Fin 1 → List Char → Slots → Bool × Slots := fun _ _ _ m => (false, m)

theorem fromString_redacted_iff_sampleVisit :
    (fromString zeroFloats visitPool parseDocument noFromJson .cpp .yaml 0
        (toString zeroFloats visitPool noJson .python true agePhi .yaml 0 sampleVisit)
          (visitPool.new 0) = .ok (true, clearPhi visitPool agePhi 0 sampleVisit) ↔
        Restorable visitPool agePhi .cpp .yaml 0 sampleVisit) ∧
      (∀ lang, fromString zeroFloats visitPool parseDocument noFromJson lang .xml 0
        (toString zeroFloats visitPool noJson .cpp true agePhi .xml 0 sampleVisit) (visitPool.new 0) =
          .ok (true, clearPhi visitPool agePhi 0 sampleVisit) ↔
        Restorable visitPool agePhi lang .xml 0 sampleVisit) ∧
      Restorable visitPool agePhi .cpp .yaml 0 sampleVisit ∧
        ∀ lang, Restorable visitPool agePhi lang .xml 0 sampleVisit :=
  ⟨fromString_redacted_iff zeroFloats visitPool named_visitPool agePhi parseDocument
      processor_parseDocument noFromJson noJson .python .cpp .yaml (by decide) 0 (by decide)
      (fun _ => keyedFrom_visitPool) (fun _ name => by simp [isPhi, agePhi]) (by decide) sampleVisit
      typed_sampleVisit,
    fun lang => fromString_redacted_iff zeroFloats visitPool named_visitPool agePhi parseDocument
      processor_parseDocument noFromJson noJson .cpp lang .xml (by decide) 0 (by decide)
      (fun h => absurd h (by decide)) (fun h => absurd h (by decide)) (by decide) sampleVisit
      typed_sampleVisit, by decide, fun lang => by cases lang <;> decide⟩

/-- A carriage return in a name that is no `phi` field is read back from redacted YAML as the letter
of its escape. -/
theorem not_fromString_redacted :
    Named visitPool ∧ Processor parseDocument ∧ KeyedFrom visitPool 0 ∧ KeysShown agePhi ∧
      treeHasPhi visitPool agePhi 0 ∧ Typed visitPool 0 (patientVisit ['\r'] 40 []) ∧
      ∀ writer reader,
        fromString zeroFloats visitPool parseDocument noFromJson reader .yaml 0
          (toString zeroFloats visitPool noJson writer true agePhi .yaml 0
            (patientVisit ['\r'] 40 [])) (visitPool.new 0) ≠
          .ok (true, clearPhi visitPool agePhi 0 (patientVisit ['\r'] 40 [])) := by
  have read : ∀ writer reader, fromString zeroFloats visitPool parseDocument noFromJson reader .yaml 0
      (toString zeroFloats visitPool noJson writer true agePhi .yaml 0 (patientVisit ['\r'] 40 []))
      (visitPool.new 0) = .ok (true, patientVisit ['r'] 0 []) := by
    intro writer reader
    cases writer <;> cases reader <;> rfl
  refine ⟨named_visitPool, processor_parseDocument, keyedFrom_visitPool,
    fun name => by simp [isPhi, agePhi], by decide,
    typed_visit (by decide) (by simp [TypedItems]) (by simp), fun writer reader h => ?_⟩
  rw [read writer reader] at h
  have cleared : clearPhi visitPool agePhi 0 (patientVisit ['\r'] 40 []) =
      patientVisit ['\r'] 0 [] := rfl
  rw [cleared] at h
  simp [patientVisit] at h

end Harpia
