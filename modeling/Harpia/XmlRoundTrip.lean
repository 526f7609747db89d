import Harpia.XmlReader
import Harpia.YamlRoundTrip

namespace Harpia

open Text Reflection Markup

variable {n : Nat}

section Texts

variable (p : List Char → Bool)

def scalarAll : Scalar → Bool
  | .text s => p s
  | _ => true

mutual

/-- All texts that a message holds, map keys included, are of one kind. -/
def textsAll : List (List Value) → Bool
  | [] => true
  | slot :: slots => itemsAll slot && textsAll slots

def itemsAll : List Value → Bool
  | [] => true
  | v :: vs => valueAll v && itemsAll vs

def valueAll : Value → Bool
  | .scalar x => scalarAll p x
  | .message slots => textsAll slots

end

variable {p}

theorem itemsAll_iff {vs : List Value} : itemsAll p vs ↔ ∀ v ∈ vs, valueAll p v := by
  induction vs with
  | nil => simp [itemsAll]
  | cons v vs ih => simp [itemsAll, ih]

theorem textsAll_iff {slots : List (List Value)} :
    textsAll p slots ↔ ∀ slot ∈ slots, itemsAll p slot := by
  induction slots with
  | nil => simp [textsAll]
  | cons slot slots ih => simp [textsAll, ih]

theorem valueAll_and {q : List Char → Bool} (v : Value) :
    valueAll (fun s => p s && q s) v ↔ valueAll p v ∧ valueAll q v := by
  induction v using Value.induct with
  | scalar x => cases x <;> simp [valueAll, scalarAll]
  | message slots ih =>
    simp only [valueAll, textsAll_iff, itemsAll_iff]
    constructor
    · exact fun h => ⟨fun slot hs v hv => ((ih slot hs v hv).mp (h slot hs v hv)).1,
        fun slot hs v hv => ((ih slot hs v hv).mp (h slot hs v hv)).2⟩
    · exact fun h slot hs v hv => (ih slot hs v hv).mpr ⟨h.1 slot hs v hv, h.2 slot hs v hv⟩

theorem textsAll_and {q : List Char → Bool} {m : Slots} :
    textsAll (fun s => p s && q s) m ↔ textsAll p m ∧ textsAll q m := by
  have whole := valueAll_and (p := p) (q := q) (.message m)
  simpa only [valueAll] using whole

theorem textsAll_mono {q : List Char → Bool} (imp : ∀ s, p s → q s) {m : Slots}
    (h : textsAll p m) : textsAll q m := by
  have same : (fun s => p s && q s) = p := funext fun s => by
    cases hp : p s with
    | false => rfl
    | true => rw [imp s hp, Bool.and_true]
  rw [← same] at h
  exact (textsAll_and.mp h).2

theorem textsAll_set {m : Slots} {slot : List Value} (h : textsAll p m) (hs : itemsAll p slot)
    (i : Nat) : textsAll p (m.set i slot) := by
  rw [textsAll_iff] at h ⊢
  intro s hmem
  rcases List.mem_or_eq_of_mem_set hmem with old | rfl
  · exact h s old
  · exact hs

theorem textsAll_modify {m : Slots} {g : List Value → List Value} (h : textsAll p m)
    (hg : ∀ slot, itemsAll p slot → itemsAll p (g slot)) (i : Nat) : textsAll p (m.modify i g) := by
  cases hi : m[i]? with
  | none =>
    rw [List.modify_eq_self (List.getElem?_eq_none_iff.mp hi)]
    exact h
  | some slot =>
    rw [List.modify_eq_set_getElem?, hi]
    exact textsAll_set h (hg slot (textsAll_iff.mp h slot (List.mem_of_getElem? hi))) i

theorem itemsAll_append {a b : List Value} (ha : itemsAll p a) (hb : itemsAll p b) :
    itemsAll p (a ++ b) := by
  rw [itemsAll_iff] at ha hb ⊢
  exact fun v hv => (List.mem_append.mp hv).elim (ha v) (hb v)

theorem itemsAll_single {v : Value} (h : valueAll p v) : itemsAll p [v] := by
  rw [itemsAll, h, itemsAll]
  rfl

theorem scalarAll_default (h : p []) (ty : CppType n) : scalarAll p ty.default := by
  cases ty <;> first | exact h | rfl

theorem textsAll_new (h : p []) (P : Pool n) (t : Fin n) : textsAll p (P.new t) := by
  refine textsAll_iff.mpr fun slot hslot => ?_
  obtain ⟨f, -, rfl⟩ := List.mem_map.mp hslot
  unfold Field.initial
  split
  · rfl
  · exact itemsAll_single (scalarAll_default h f.type)

theorem putEntry_texts {es : List Value} {e : Value} (hes : itemsAll p es) (he : valueAll p e) :
    itemsAll p (putEntry es e) := by
  unfold putEntry
  split
  · rw [itemsAll_iff] at hes ⊢
    intro v hv
    obtain ⟨o, ho, rfl⟩ := List.mem_map.mp hv
    split
    · exact he
    · exact hes o ho
  · exact itemsAll_append hes (itemsAll_single he)

theorem mutableMessage_texts {P : Pool n} {f : Field n} {i : Nat} {m sub : Slots} (h : p [])
    (hm : textsAll p m) (hsub : P.mutableMessage f i m = some sub) : textsAll p sub := by
  unfold Pool.mutableMessage at hsub
  split at hsub
  · split at hsub
    · exact absurd hsub (by simp)
    · split at hsub
      next sub' rest held =>
        have slot := textsAll_iff.mp hm _ (List.mem_of_getElem? held)
        rw [itemsAll, valueAll, Bool.and_eq_true] at slot
        rw [← Option.some.inj hsub]
        exact slot.1
      next =>
        rw [← Option.some.inj hsub]
        exact textsAll_new h P _
  · exact absurd hsub (by simp)

/-- A text that is read as a text is read as it is. -/
theorem parseScalar_text {F : FloatText} {lang : Lang} {ty : CppType n} {cs s : List Char}
    (h : parseScalar F lang ty cs = some (.text s)) : s = cs := by
  cases ty with
  | string => simpa [parseScalar] using h.symm
  | enum e =>
    simp only [parseScalar] at h
    split at h
    · exact absurd h (by simp)
    · obtain ⟨v, -, hv⟩ := Option.map_eq_some_iff.mp h
      exact absurd hv (by simp)
  | _ => exact absurd h (by simp [parseScalar])

end Texts

def legalText (s : List Char) : Bool := s.all isXmlChar

def noReturn (s : List Char) : Bool := decide ('\r' ∉ s)

/-- The names of types and fields start with a letter or an underscore, as protobuf has them. -/
structure Named (P : Pool n) : Prop where
  types : ∀ t, isXmlName (P.desc t).name
  fields : ∀ t, ∀ f ∈ (P.desc t).fields, isXmlName f.name

section Escape

/-- The characters of a number, of a truth value and of a name of an enum. -/
def plainChar (c : Char) : Bool := isWord c || c = '-'

theorem escapeChar_cases (c : Char) :
    (∃ name, escapeChar c = '&' :: name ++ [';'] ∧ predefined name = some c ∧ '\r' ∉ name ∧
      plainChar c = false) ∨
      (escapeChar c = [c] ∧ c ≠ '<' ∧ c ≠ '&' ∧ c ≠ '>') := by
  unfold escapeChar
  split
  · exact .inl ⟨['a', 'm', 'p'], by decide⟩
  · exact .inl ⟨['l', 't'], by decide⟩
  · exact .inl ⟨['g', 't'], by decide⟩
  · exact .inl ⟨['q', 'u', 'o', 't'], by decide⟩
  · exact .inl ⟨['a', 'p', 'o', 's'], by decide⟩
  next amp lt gt _ _ => exact .inr ⟨rfl, lt, amp, gt⟩

theorem normalizeEnds_append_left {a : List Char} (h : '\r' ∉ a) (b : List Char) :
    normalizeEnds (a ++ b) = a ++ normalizeEnds b := by
  induction a with
  | nil => rfl
  | cons c a ih =>
    rw [List.mem_cons, not_or] at h
    rw [List.cons_append, normalizeEnds_cons (Ne.symm h.1), ih h.2, List.cons_append]

theorem escape_cons (c : Char) (s : List Char) : escape (c :: s) = escapeChar c ++ escape s :=
  List.flatMap_cons

theorem escape_head {s : List Char} (h : ∀ c ∈ s.head?, c ≠ '\n') :
    ∀ c ∈ (escape s).head?, c ≠ '\n' := by
  cases s with
  | nil => simp [escape]
  | cons d s =>
    rw [escape_cons]
    rcases escapeChar_cases d with ⟨name, he, -⟩ | ⟨he, -⟩
    · simp [he]
    · simpa [he] using h

theorem normalizeEnds_escape (s : List Char) :
    normalizeEnds (escape s) = escape (normalizeEnds s) := by
  induction s using normalizeEnds.induct with
  | case1 => rfl
  | case2 cs ih =>
    have pair : escape ('\r' :: '\n' :: cs) = '\r' :: '\n' :: escape cs := rfl
    have feed : escape ('\n' :: normalizeEnds cs) = '\n' :: escape (normalizeEnds cs) := rfl
    rw [pair, normalizeEnds, normalizeEnds, feed, ih]
  | case3 c cs notPair ih =>
    by_cases hc : c = '\r'
    · subst hc
      have single : ∀ d ∈ cs.head?, d ≠ '\n' := by
        intro d hd he
        cases cs with
        | nil => simp at hd
        | cons e cs =>
          rw [List.head?_cons, Option.mem_some_iff] at hd
          exact notPair cs rfl (by rw [hd, he])
      have ret : escape ('\r' :: cs) = '\r' :: escape cs := rfl
      have feed : escape ('\n' :: normalizeEnds cs) = '\n' :: escape (normalizeEnds cs) := rfl
      rw [ret, normalizeEnds_return (escape_head single), normalizeEnds_return single, feed, ih]
    · have inner : '\r' ∉ escapeChar c := by
        rcases escapeChar_cases c with ⟨name, he, -, hn, -⟩ | ⟨he, -⟩
        · simp [he, hn]
        · simpa [he] using Ne.symm hc
      rw [escape_cons, normalizeEnds_append_left inner, ih, normalizeEnds_cons hc, escape_cons]

theorem content_escape {s : List Char} (h : ∀ c ∈ s, isXmlChar c) :
    Content (escape s) (s.map Item.char) := by
  induction s with
  | nil => exact .nil
  | cons c s ih =>
    obtain ⟨legal, rest⟩ := List.forall_mem_cons.mp h
    rw [escape_cons, List.map_cons]
    rcases escapeChar_cases c with ⟨name, he, known, -⟩ | ⟨he, plain⟩
    · have shape : escapeChar c ++ escape s = '&' :: name ++ ';' :: escape s := by simp [he]
      rw [shape]
      exact .entity known (ih rest)
    · rw [he]
      exact .char legal plain (ih rest)

theorem isXmlChar_normalizeEnds {s : List Char} (h : ∀ c ∈ s, isXmlChar c) :
    ∀ c ∈ normalizeEnds s, isXmlChar c := by
  have feed : isXmlChar '\n' := by decide
  induction s using normalizeEnds.induct with
  | case1 => exact h
  | case2 cs ih =>
    rw [normalizeEnds]
    have rest := (List.forall_mem_cons.mp (List.forall_mem_cons.mp h).2).2
    exact List.forall_mem_cons.mpr ⟨feed, ih rest⟩
  | case3 c cs notPair ih =>
    obtain ⟨legal, rest⟩ := List.forall_mem_cons.mp h
    rw [normalizeEnds.eq_3 c cs notPair]
    refine List.forall_mem_cons.mpr ⟨?_, ih rest⟩
    split
    · exact feed
    · exact legal

end Escape

section Elements

variable (F : FloatText) (P : Pool n)

/-- The characters of a value, as a parser passes them on. -/
def textItems (ty : CppType n) (x : Scalar) : List Item :=
  (normalizeEnds (scalarText F ty x)).map Item.char

mutual

/-- The elements that the writer makes of the fields of a message. -/
def elementsOf : List (Field n) → List (List Value) → List Item
  | _, [] => []
  | [], _ :: _ => []
  | f :: fields, slot :: slots => fieldElements f slot ++ elementsOf fields slots

def fieldElements (f : Field n) : List Value → List Item
  | [] => if f.repeated || f.presence then [] else [.element f.name (textItems F f.type f.type.default)]
  | v :: vs => .element f.name (valueContent f.type v) :: if f.repeated then itemElements f vs else []

def itemElements (f : Field n) : List Value → List Item
  | [] => []
  | v :: vs => .element f.name (valueContent f.type v) :: itemElements f vs

def valueContent (ty : CppType n) : Value → List Item
  | .scalar x => textItems F ty x
  | .message slots =>
    match ty.messageType? with
    | some s => elementsOf (P.desc s).fields slots
    | none => []

end

variable {F P}

theorem isXmlChar_of_isWord {c : Char} (h : isWord c) : isXmlChar c := by
  obtain ⟨low, high⟩ := isWord_printable h
  have range : 0x20 ≤ c.toNat ∧ c.toNat ≤ 0xD7FF := ⟨low, by omega⟩
  simp [isXmlChar, range]

theorem scalarText_plain {ty : CppType n} {x : Scalar} (h : CanHold ty x) :
    (∃ s, x = .text s) ∨
      (xmlText F ty x = scalarText F ty x ∧ ∀ c ∈ scalarText F ty x, plainChar c) := by
  have number : ∀ k : Int, ∀ c ∈ intText k, plainChar c := by
    intro k c hc
    have digit : ∀ c ∈ decimal k.natAbs, plainChar c := fun c hc => by
      simp [plainChar, isWord_of_isDigit (decimal_isDigit hc)]
    unfold intText at hc
    split at hc
    · rcases List.mem_cons.mp hc with rfl | hc
      · decide
      · exact digit c hc
    · exact digit c hc
  cases ty <;> cases x <;> simp only [CanHold] at h
  case int32.int k => exact .inr ⟨rfl, number k⟩
  case int64.int k => exact .inr ⟨rfl, number k⟩
  case uint32.int k => exact .inr ⟨rfl, number k⟩
  case uint64.int k => exact .inr ⟨rfl, number k⟩
  case bool.bool b =>
    have word : ∀ b, ∀ c ∈ boolText b, plainChar c := fun b =>
      List.all_eq_true.mp (by cases b <;> decide)
    exact .inr ⟨rfl, word b⟩
  case enum.int e k =>
    refine .inr ⟨rfl, fun c hc => ?_⟩
    have word : isWord c := (isName_cons (find?_enumName h).2).2 c hc
    simp [plainChar, word]
  case string.text s => exact .inl ⟨s, rfl⟩

theorem escape_plain {s : List Char} (h : ∀ c ∈ s, plainChar c) : escape s = s := by
  induction s with
  | nil => rfl
  | cons c s ih =>
    obtain ⟨plain, rest⟩ := List.forall_mem_cons.mp h
    rw [escape_cons, ih rest]
    rcases escapeChar_cases c with ⟨-, -, -, -, special⟩ | ⟨he, -⟩
    · rw [special] at plain
      exact absurd plain (by decide)
    · rw [he]
      rfl

theorem xmlName_noReturn {name : List Char} (h : isXmlName name) : '\r' ∉ name := fun hr =>
  absurd ((isWord_of_isXmlName h).2 '\r' hr) (by decide)

theorem content_tagged {name body : List Char} {items : List Item} (h : isXmlName name)
    (content : Content (normalizeEnds body) items) :
    Content (normalizeEnds (tagged name body)) [.element name items] := by
  have clean := xmlName_noReturn h
  have start : '\r' ∉ '<' :: name ++ ['>'] := by simp [clean]
  have finish : '\r' ∉ '<' :: '/' :: name ++ ['>'] := by simp [clean]
  have shape : tagged name body =
      ('<' :: name ++ ['>']) ++ (body ++ ('<' :: '/' :: name ++ ['>'])) := by simp [tagged]
  have text : normalizeEnds (tagged name body) =
      '<' :: name ++ '>' :: normalizeEnds body ++ '<' :: '/' :: name ++ '>' :: [] := by
    rw [shape, normalizeEnds_append_left start, normalizeEnds_append body (by simp),
      normalizeEnds_eq_self finish]
    simp
  rw [text]
  exact .element h content .nil

/-- The characters of a value are those of its text, escaped. -/
theorem xmlText_escape {ty : CppType n} {x : Scalar} (h : CanHold ty x) :
    xmlText F ty x = escape (scalarText F ty x) := by
  rcases scalarText_plain (F := F) h with ⟨s, rfl⟩ | ⟨same, plain⟩
  · cases ty <;> rfl
  · rw [same, escape_plain plain]

theorem scalarText_kind {p : List Char → Bool} (plain : ∀ s, (∀ c ∈ s, plainChar c) → p s)
    {ty : CppType n} {x : Scalar} (h : CanHold ty x) (kind : scalarAll p x) :
    p (scalarText F ty x) := by
  rcases scalarText_plain (F := F) h with ⟨s, rfl⟩ | ⟨-, chars⟩
  · have text : scalarText F ty (.text s) = s := by cases ty <;> rfl
    rwa [text]
  · exact plain _ chars

/-- Elements in a row, each with a text of one kind in it or with elements again. -/
inductive Written (p : List Char → Bool) : List Char → List Item → Prop
  | nil : Written p [] []
  | text {name s cs : List Char} {items : List Item} (named : isXmlName name) (kind : p s)
      (rest : Written p cs items) :
      Written p (tagged name (escape s) ++ cs)
        (.element name ((normalizeEnds s).map .char) :: items)
  | elements {name body cs : List Char} {inner items : List Item} (named : isXmlName name)
      (content : Written p body inner) (rest : Written p cs items) :
      Written p (tagged name body ++ cs) (.element name inner :: items)

theorem Written.append {p : List Char → Bool} {a b : List Char} {xs ys : List Item}
    (ha : Written p a xs) (hb : Written p b ys) : Written p (a ++ b) (xs ++ ys) := by
  induction ha with
  | nil => exact hb
  | text named kind _ ih =>
    rw [List.append_assoc, List.cons_append]
    exact .text named kind ih
  | elements named content _ _ ih =>
    rw [List.append_assoc, List.cons_append]
    exact .elements named content ih

variable (F P) in
/-- The element of a value is written as its text. -/
def Renders (p : List Char → Bool) (v : Value) : Prop :=
  ∀ ty name, TypedValue P ty v → valueAll p v → isXmlName name →
    Written p (tagged name (Xml.writeValue F P ty v)) [.element name (valueContent F P ty v)]

variable {p : List Char → Bool}

theorem written_items {f : Field n} (named : isXmlName f.name) {vs : List Value}
    (ih : ∀ v ∈ vs, Renders F P p v) (typed : TypedItems P f.type vs) (kind : itemsAll p vs) :
    Written p (Xml.writeItems F P f vs) (itemElements F P f vs) := by
  induction vs with
  | nil => exact .nil
  | cons v vs rest =>
    obtain ⟨here, below⟩ := List.forall_mem_cons.mp ih
    rw [TypedItems] at typed
    rw [itemsAll, Bool.and_eq_true] at kind
    rw [Xml.writeItems, itemElements]
    exact (here f.type f.name typed.1 kind.1 named).append (rest below typed.2 kind.2)

theorem written_field {t : Fin n} {f : Field n} (named : isXmlName f.name) {slot : List Value}
    (ih : ∀ v ∈ slot, Renders F P p v) (shape : SlotShape P t f slot)
    (typed : TypedItems P f.type slot) (kind : itemsAll p slot) :
    Written p (Xml.writeField F P f slot) (fieldElements F P f slot) := by
  cases slot with
  | nil =>
    have silent : (f.repeated || f.presence) = true := by
      by_cases hr : f.repeated
      · simp [hr]
      · simp [(shape.unset (by simpa using hr) rfl).1]
    rw [Xml.writeField, fieldElements, if_pos silent, if_pos silent]
    exact .nil
  | cons v vs =>
    obtain ⟨here, below⟩ := List.forall_mem_cons.mp ih
    rw [TypedItems] at typed
    rw [itemsAll, Bool.and_eq_true] at kind
    have value := here f.type f.name typed.1 kind.1 named
    rw [Xml.writeField, fieldElements]
    by_cases hr : f.repeated
    · rw [if_pos hr, if_pos hr]
      exact value.append (written_items named below typed.2 kind.2)
    · rw [if_neg hr, if_neg hr, List.append_nil]
      exact value

theorem written_fields {t : Fin n} {fields : List (Field n)}
    (named : ∀ f ∈ fields, isXmlName f.name) {slots : List (List Value)}
    (ih : ∀ slot ∈ slots, ∀ v ∈ slot, Renders F P p v) (typed : TypedFields P t fields slots)
    (kind : textsAll p slots) :
    Written p (Xml.writeFields F P fields slots) (elementsOf F P fields slots) := by
  induction slots generalizing fields with
  | nil =>
    rw [Xml.writeFields, elementsOf]
    exact .nil
  | cons slot slots rest =>
    cases fields with
    | nil => exact absurd typed (by simp [TypedFields])
    | cons f fields =>
      obtain ⟨name, names⟩ := List.forall_mem_cons.mp named
      obtain ⟨here, below⟩ := List.forall_mem_cons.mp ih
      rw [TypedFields] at typed
      rw [textsAll, Bool.and_eq_true] at kind
      rw [Xml.writeFields, elementsOf]
      exact (written_field name here typed.1 typed.2.1 kind.1).append
        (rest names below typed.2.2 kind.2)

theorem renders (plain : ∀ s, (∀ c ∈ s, plainChar c) → p s) (named : Named P) (v : Value) :
    Renders F P p v := by
  induction v using Value.induct with
  | scalar x =>
    intro ty name typed kind hname
    rw [TypedValue] at typed
    rw [valueAll] at kind
    rw [Xml.writeValue, valueContent, xmlText_escape typed, ← List.append_nil (tagged _ _)]
    exact .text hname (scalarText_kind plain typed kind) .nil
  | message slots ih =>
    intro ty name typed kind hname
    obtain ⟨s, hs, fields⟩ := typed_message typed
    rw [valueAll] at kind
    simp only [Xml.writeValue, valueContent, hs]
    rw [← List.append_nil (tagged _ _)]
    exact .elements hname (written_fields (named.fields s) ih fields kind) .nil

/-- The fields of a message are written as a row of elements. -/
theorem written_message (plain : ∀ s, (∀ c ∈ s, plainChar c) → p s) (named : Named P) {t : Fin n}
    {m : Slots} (typed : Typed P t m) (kind : textsAll p m) :
    Written p (Xml.writeFields F P (P.desc t).fields m) (elementsOf F P (P.desc t).fields m) :=
  written_fields (named.fields t) (fun _ _ v _ => renders plain named v) typed kind

theorem startsTag_written {text : List Char} {items : List Item} (h : Written p text items) :
    ∀ c ∈ text.head?, c = '<' := by
  cases h <;> simp [tagged]

/-- A row of elements stands for them, where its texts have legal characters. -/
theorem Written.content (legal : ∀ s, p s → legalText s) {text : List Char} {items : List Item}
    (h : Written p text items) : Content (normalizeEnds text) items := by
  have split : ∀ {a b : List Char} {xs ys : List Item}, Written p b ys →
      Content (normalizeEnds a) xs → Content (normalizeEnds b) ys →
      Content (normalizeEnds (a ++ b)) (xs ++ ys) := by
    intro a b xs ys hb ha hys
    have start : ∀ c ∈ b.head?, c ≠ '\n' := fun c hc => by
      rw [startsTag_written hb c hc]
      decide
    rw [normalizeEnds_append a start]
    exact ha.append hys
  induction h with
  | nil => exact .nil
  | @text name s cs items named kind rest ih =>
    have chars : ∀ c ∈ s, isXmlChar c := List.all_eq_true.mp (legal s kind)
    have text : Content (normalizeEnds (escape s)) ((normalizeEnds s).map .char) := by
      rw [normalizeEnds_escape]
      exact content_escape (isXmlChar_normalizeEnds chars)
    exact split rest (content_tagged named text) ih
  | elements named _ rest ihContent ih => exact split rest (content_tagged named ihContent) ih

theorem legalText_plain {s : List Char} (h : ∀ c ∈ s, plainChar c) : legalText s := by
  refine List.all_eq_true.mpr fun c hc => ?_
  have kind := h c hc
  rw [plainChar, Bool.or_eq_true, decide_eq_true_eq] at kind
  rcases kind with word | rfl
  · exact isXmlChar_of_isWord word
  · decide

/-- What a parser finds in the text of a message. -/
theorem content_toXml (named : Named P) {t : Fin n} {m : Slots} (typed : Typed P t m)
    (legal : textsAll legalText m) : Content (normalizeEnds (toXml F P t m))
      [.element (P.desc t).name (elementsOf F P (P.desc t).fields m)] :=
  content_tagged (named.types t)
    ((written_message (fun _ => legalText_plain) named typed legal).content fun _ h => h)

end Elements

section Reading

variable {F : FloatText} {P : Pool n} {lang : Lang}

theorem readMessage_append (t : Fin n) (xs ys : List Item) (m : Slots) :
    Xml.readMessage F P lang t (xs ++ ys) m =
      Xml.readMessage F P lang t ys (Xml.readMessage F P lang t xs m) := by
  induction xs generalizing m with
  | nil => rw [List.nil_append, Xml.readMessage]
  | cons x xs ih => rw [List.cons_append, Xml.readMessage, Xml.readMessage, ih]

/-- The characters of a value are read back as that value. -/
theorem scalarOfText_textItems {ty : CppType n} {x : Scalar} (h : CanHold ty x)
    (clean : scalarAll noReturn x) :
    scalarOfText F lang ty (getText (textItems F ty x)) = some x := by
  have chars : leadingText (textItems F ty x) = scalarText F ty x := by
    rw [textItems, leadingText_chars, normalizeEnds_eq_self]
    rcases scalarText_plain (F := F) h with ⟨s, rfl⟩ | ⟨-, plain⟩
    · have same : scalarText F ty (.text s) = s := by cases ty <;> rfl
      simpa [same, scalarAll, noReturn] using clean
    · exact fun hr => absurd (plain '\r' hr) (by decide)
  have back := parseScalar_scalarText F lang h
  rw [getText, chars]
  split
  next empty =>
    rw [empty] at back
    cases ty with
    | enum e =>
      cases x with
      | int k =>
        obtain ⟨⟨c, cs, hc⟩, -⟩ := isName_cons (find?_enumName h).2
        have text : scalarText F (.enum e : CppType n) (.int k) = enumName e k := rfl
        simp [text, hc] at empty
      | _ => exact absurd h (by simp [CanHold])
    | _ => exact back
  next => exact back

variable {t : Fin n} {f : Field n} {i : Nat}

theorem readChild_scalar (hf : (P.desc t).fields[i]? = some f) {x : Scalar} (h : CanHold f.type x)
    (clean : scalarAll noReturn x) (m : Slots) :
    Xml.readChild F P lang t (.element f.name (valueContent F P f.type (.scalar x))) m =
      if f.repeated then m.modify i (· ++ [.scalar x]) else m.set i [.scalar x] := by
  simp only [Xml.readChild, P.find?_name t hf, canHold_notMessage h, valueContent, storeText,
    scalarOfText_textItems h clean]

/-- A message within a message, where it is not an entry that the Python reader takes apart. -/
theorem readChild_message (hf : (P.desc t).fields[i]? = some f) {s : Fin n}
    (hs : f.type.messageType? = some s) (plain : lang = .cpp ∨ (P.desc s).mapEntry = false)
    (content : List Item) (m : Slots) :
    Xml.readChild F P lang t (.element f.name content) m =
      if f.repeated then m.modify i (· ++ [.message (Xml.readMessage F P lang s content (P.new s))])
      else m.set i
        [.message (Xml.readMessage F P lang s content ((P.mutableMessage f i m).getD (P.new s)))] := by
  simp only [Xml.readChild, P.find?_name t hf, hs]
  split
  next entry _ => rcases plain with h | h <;> simp_all
  next => rfl

/-- An entry that the Python reader takes apart. -/
theorem readChild_entry (hf : (P.desc t).fields[i]? = some f) {s : Fin n}
    (hs : f.type.messageType? = some s) (entry : (P.desc s).mapEntry) {kf vf : Field n}
    (hfields : (P.desc s).fields = [kf, vf]) (content : List Item) (m : Slots) :
    Xml.readChild F P .python t (.element f.name content) m =
      m.modify i fun es => putEntry es (.message [[entryScalar F .python kf content],
        [vf.type.messageType?.elim (entryScalar F .python vf content) fun v =>
          .message (Xml.readNamed F P .python v vf.name content)]]) := by
  cases hv : vf.type.messageType? with
  | none => simp only [Xml.readChild, P.find?_name t hf, hs, entry, hfields, hv, Option.elim_none]
  | some v => simp only [Xml.readChild, P.find?_name t hf, hs, entry, hfields, hv, Option.elim_some]

theorem entryScalar_key {kf : Field n} {k : Scalar} (h : CanHold kf.type k)
    (clean : scalarAll noReturn k) (rest : List Item) :
    entryScalar F .python kf (.element kf.name (textItems F kf.type k) :: rest) = .scalar k := by
  simp only [entryScalar, entryText, findElement, ↓reduceIte, Option.bind_some,
    scalarOfText_textItems h clean, Option.getD_some]

variable (F P lang) in
/-- What is read back of a value: a message from its elements, and an entry of a map. -/
structure Reread (v : Value) : Prop where
  message : ∀ s slots, v = .message slots → TypedFields P s (P.desc s).fields slots →
    textsAll noReturn slots →
    Xml.readMessage F P lang s (elementsOf F P (P.desc s).fields slots) (P.new s) = slots
  entry : ∀ t i f, (P.desc t).fields[i]? = some f → P.isMap f → TypedValue P f.type v →
    valueAll noReturn v → lang = .python → ∀ m,
    Xml.readChild F P lang t (.element f.name (valueContent F P f.type v)) m =
      m.modify i fun es => putEntry es v

/-- An element of a repeated field, or an entry of a map, is added to those before it. -/
theorem readChild_item (hf : (P.desc t).fields[i]? = some f) (many : f.repeated) {v : Value}
    (back : Reread F P lang v) (typed : TypedValue P f.type v) (clean : valueAll noReturn v)
    {a b : Slots} (hi : a.length = i) {es : List Value}
    (fresh : P.isMap f → entryKey v ∉ es.map entryKey) :
    Xml.readChild F P lang t (.element f.name (valueContent F P f.type v)) (a ++ es :: b) =
      a ++ (es ++ [v]) :: b := by
  subst hi
  by_cases hm : P.isMap f ∧ lang = .python
  · rw [back.entry t a.length f hf hm.1 typed clean hm.2, modify_mid, putEntry_new (fresh hm.1)]
  · cases v with
    | scalar x =>
      rw [TypedValue] at typed
      rw [valueAll] at clean
      rw [readChild_scalar hf typed clean, if_pos many, modify_mid]
    | message slots =>
      obtain ⟨s, hs, fields⟩ := typed_message typed
      have plain : lang = .cpp ∨ (P.desc s).mapEntry = false := by
        cases lang with
        | cpp => exact .inl rfl
        | python =>
          have other : ¬ P.isMap f := fun h => hm ⟨h, rfl⟩
          rw [Pool.isMap, CppType.eq_message hs] at other
          exact .inr (by simpa using other)
      rw [valueAll] at clean
      have read := back.message s slots rfl fields clean
      rw [readChild_message hf hs plain, if_pos many, modify_mid]
      simp only [valueContent, hs, read]

theorem readMessage_items (hf : (P.desc t).fields[i]? = some f) (many : f.repeated)
    {vs : List Value} (back : ∀ v ∈ vs, Reread F P lang v) (typed : TypedItems P f.type vs)
    (clean : itemsAll noReturn vs) {a b : Slots} (hi : a.length = i) {es : List Value}
    (fresh : P.isMap f → ((es ++ vs).map entryKey).Nodup) :
    Xml.readMessage F P lang t (itemElements F P f vs) (a ++ es :: b) = a ++ (es ++ vs) :: b := by
  induction vs generalizing es with
  | nil => rw [itemElements, Xml.readMessage, List.append_nil]
  | cons v vs ih =>
    obtain ⟨here, below⟩ := List.forall_mem_cons.mp back
    rw [TypedItems] at typed
    rw [itemsAll, Bool.and_eq_true] at clean
    have new : P.isMap f → entryKey v ∉ es.map entryKey := by
      intro hm
      have nodup := fresh hm
      rw [List.map_append, List.map_cons] at nodup
      exact fun hmem => (List.nodup_append.mp nodup).2.2 _ hmem _ List.mem_cons_self rfl
    have shift : es ++ v :: vs = (es ++ [v]) ++ vs := by simp
    rw [itemElements, Xml.readMessage, readChild_item hf many here typed.1 clean.1 hi new, shift]
    exact ih below typed.2 clean.2 fun hm => shift ▸ fresh hm

/-- A singular field that is set. -/
theorem readChild_single (hf : (P.desc t).fields[i]? = some f) (single : f.repeated = false)
    {v : Value} (back : Reread F P lang v) (typed : TypedValue P f.type v)
    (clean : valueAll noReturn v) {a b : Slots} (hi : a.length = i) :
    Xml.readChild F P lang t (.element f.name (valueContent F P f.type v))
      (a ++ f.initial :: b) = a ++ [v] :: b := by
  subst hi
  have one : ¬ f.repeated = true := by simp [single]
  cases v with
  | scalar x =>
    rw [TypedValue] at typed
    rw [valueAll] at clean
    rw [readChild_scalar hf typed clean, if_neg one, set_mid]
  | message slots =>
    obtain ⟨s, hs, fields⟩ := typed_message typed
    have mem := List.mem_of_getElem? hf
    have plain : (P.desc s).mapEntry = false := by
      by_contra entry
      have many := P.map_repeated t f mem s (CppType.eq_message hs) (by simpa using entry)
      exact one many
    have unset : f.initial = [] := by
      have message : f.type.isMessage := by simp [CppType.isMessage, hs]
      simp [Field.initial, P.presence_message t f mem single message]
    have new : (P.mutableMessage f a.length (a ++ f.initial :: b)).getD (P.new s) = P.new s := by
      simp [Pool.mutableMessage, hs, single, unset]
    rw [valueAll] at clean
    have read := back.message s slots rfl fields clean
    rw [readChild_message hf hs (.inr plain), if_neg one, set_mid, new]
    simp only [valueContent, hs, read]

theorem readMessage_field (hf : (P.desc t).fields[i]? = some f) {slot : List Value}
    (back : ∀ v ∈ slot, Reread F P lang v) (shape : SlotShape P t f slot)
    (typed : TypedItems P f.type slot) (clean : itemsAll noReturn slot) {a b : Slots}
    (hi : a.length = i) :
    Xml.readMessage F P lang t (fieldElements F P f slot) (a ++ f.initial :: b) =
      a ++ slot :: b := by
  by_cases many : f.repeated
  · have unset : f.initial = [] := by simp [Field.initial, many]
    have items : fieldElements F P f slot = itemElements F P f slot := by
      cases slot with
      | nil => simp [fieldElements, itemElements, many]
      | cons v vs => rw [fieldElements, itemElements, if_pos many]
    have keys : P.isMap f → (([] ++ slot).map entryKey).Nodup := shape.keys
    rw [items, unset, readMessage_items hf many back typed clean hi keys, List.nil_append]
  · have single : f.repeated = false := by simpa using many
    cases slot with
    | nil =>
      have presence := (shape.unset single rfl).1
      have unset : f.initial = [] := by simp [Field.initial, presence]
      rw [fieldElements, if_pos (by simp [presence]), Xml.readMessage, unset]
    | cons v vs =>
      obtain ⟨here, -⟩ := List.forall_mem_cons.mp back
      have alone : vs = [] := by
        have len := shape.single single
        rw [List.length_cons] at len
        exact List.length_eq_zero_iff.mp (by omega)
      rw [TypedItems] at typed
      rw [itemsAll, Bool.and_eq_true] at clean
      rw [fieldElements, if_neg many, Xml.readMessage, Xml.readMessage,
        readChild_single hf single here typed.1 clean.1 hi, alone]

/-- The elements of a message are read back into it, from any field on. -/
theorem readMessage_fields (lang : Lang) (doneF todoF : List (Field n)) (doneS todoS : Slots)
    (hfields : (P.desc t).fields = doneF ++ todoF) (hlen : doneF.length = doneS.length)
    (back : ∀ slot ∈ todoS, ∀ v ∈ slot, Reread F P lang v) (typed : TypedFields P t todoF todoS)
    (clean : textsAll noReturn todoS) :
    Xml.readMessage F P lang t (elementsOf F P todoF todoS) (doneS ++ todoF.map Field.initial) =
      doneS ++ todoS := by
  induction todoS generalizing doneF todoF doneS with
  | nil =>
    cases todoF with
    | nil => rw [elementsOf, Xml.readMessage, List.map_nil]
    | cons f todoF => exact absurd typed (by simp [TypedFields])
  | cons slot todoS ih =>
    cases todoF with
    | nil => exact absurd typed (by simp [TypedFields])
    | cons f todoF =>
      obtain ⟨here, below⟩ := List.forall_mem_cons.mp back
      rw [TypedFields] at typed
      rw [textsAll, Bool.and_eq_true] at clean
      have hf : (P.desc t).fields[doneS.length]? = some f := by
        rw [hfields, ← hlen]
        simp
      have rest := ih (doneF ++ [f]) todoF (doneS ++ [slot]) (by simp [hfields]) (by simp [hlen])
        below typed.2.2 clean.2
      rw [elementsOf, readMessage_append, List.map_cons,
        readMessage_field hf here typed.1 typed.2.1 clean.1 rfl]
      simpa using rest

/-- Every value is read back from its elements. -/
theorem reread (v : Value) : Reread F P lang v := by
  induction v using Value.induct with
  | scalar x =>
    constructor
    · intro s slots h
      exact absurd h (by simp)
    · intro t i f _ hm typed
      obtain ⟨s, kf, vf, k, w, -, -, h, -⟩ := typed_entry hm typed
      exact absurd h (by simp)
  | message slots ih =>
    constructor
    · intro s slots' h typed clean
      obtain rfl := Value.message.inj h
      exact readMessage_fields lang [] _ [] slots rfl rfl ih typed clean
    · intro t i f hf hm typed clean hl m
      subst hl
      obtain ⟨s, kf, vf, k, w, hs, hfields, he, hk, hw, hkr, hvr⟩ := typed_entry hm typed
      obtain rfl := Value.message.inj he
      obtain ⟨entry, kf', vf', hfields', hkey, hvalue, -⟩ := Pool.isMap_fields hm hs
      rw [hfields] at hfields'
      obtain ⟨rfl, rest⟩ := List.cons.inj hfields'
      obtain ⟨rfl, -⟩ := List.cons.inj rest
      simp only [valueAll, textsAll, itemsAll, Bool.and_true, Bool.and_eq_true] at clean
      have content : valueContent F P f.type (.message [[.scalar k], [w]]) =
          [.element kf.name (textItems F kf.type k), .element vf.name (valueContent F P vf.type w)] := by
        simp [valueContent, hs, hfields, elementsOf, fieldElements, hkr, hvr]
      have apart : kf.name ≠ vf.name := by
        rw [hkey, hvalue]
        decide
      rw [content, readChild_entry hf hs entry hfields, entryScalar_key hk clean.1]
      cases w with
      | scalar x =>
        rw [TypedValue] at hw
        rw [valueAll] at clean
        simp only [canHold_notMessage hw, Option.elim_none, entryScalar, entryText, findElement,
          apart, ↓reduceIte, Option.bind_some, valueContent, scalarOfText_textItems hw clean.2,
          Option.getD_some]
      | message inner =>
        obtain ⟨v, hv, fields⟩ := typed_message hw
        rw [valueAll] at clean
        have read := (ih [.message inner] (by simp) (.message inner) (by simp)).message v inner rfl
          fields clean.2
        simp only [hv, Option.elim_some, Xml.readNamed, Xml.readIfNamed, apart, ↓reduceIte,
          valueContent, read]

end Reading

section Clean

variable {F : FloatText} {P : Pool n} {lang : Lang}

/-- A parser passes no carriage return on. -/
def NoReturn (items : List Item) : Prop := charsAll (· ≠ '\r') items

theorem NoReturn.leads {items : List Item} (h : NoReturn items) : leadsAll noReturn items := by
  refine leadsAll_of_chars (fun s clean => ?_) h
  rw [noReturn, decide_eq_true_eq]
  exact fun hr => clean '\r' hr rfl

theorem textItems_noReturn (ty : CppType n) (x : Scalar) : NoReturn (textItems F ty x) := by
  refine charsAll_iff.mpr fun item hitem => ?_
  obtain ⟨c, hc, rfl⟩ := List.mem_map.mp hitem
  rw [charAll]
  rintro rfl
  exact return_notMem_normalizeEnds _ hc

variable (F P) in
/-- The content that the writer makes of a value has no carriage return in it. -/
def PassesClean (v : Value) : Prop := ∀ ty : CppType n, NoReturn (valueContent F P ty v)

theorem itemElements_noReturn (f : Field n) {vs : List Value} (h : ∀ v ∈ vs, PassesClean F P v) :
    NoReturn (itemElements F P f vs) := by
  induction vs with
  | nil => trivial
  | cons v vs ih =>
    obtain ⟨here, below⟩ := List.forall_mem_cons.mp h
    exact ⟨here f.type, ih below⟩

theorem fieldElements_noReturn (f : Field n) {slot : List Value}
    (h : ∀ v ∈ slot, PassesClean F P v) : NoReturn (fieldElements F P f slot) := by
  cases slot with
  | nil =>
    rw [fieldElements]
    split
    · trivial
    · exact ⟨textItems_noReturn f.type f.type.default, trivial⟩
  | cons v vs =>
    obtain ⟨here, below⟩ := List.forall_mem_cons.mp h
    rw [fieldElements]
    refine ⟨here f.type, ?_⟩
    split
    · exact itemElements_noReturn f below
    · trivial

theorem elementsOf_noReturn (fields : List (Field n)) {slots : List (List Value)}
    (h : ∀ slot ∈ slots, ∀ v ∈ slot, PassesClean F P v) :
    NoReturn (elementsOf F P fields slots) := by
  induction slots generalizing fields with
  | nil =>
    rw [elementsOf]
    trivial
  | cons slot slots ih =>
    obtain ⟨here, below⟩ := List.forall_mem_cons.mp h
    cases fields with
    | nil => trivial
    | cons f fields =>
      rw [elementsOf]
      refine charsAll_iff.mpr fun x hx => ?_
      rcases List.mem_append.mp hx with hx | hx
      · exact charsAll_iff.mp (fieldElements_noReturn f here) x hx
      · exact charsAll_iff.mp (ih fields below) x hx

theorem passesClean (v : Value) : PassesClean F P v := by
  induction v using Value.induct with
  | scalar x =>
    intro ty
    rw [valueContent]
    exact textItems_noReturn ty x
  | message slots ih =>
    intro ty
    rw [valueContent]
    split
    · exact elementsOf_noReturn _ ih
    · trivial

end Clean

section Texts

variable {F : FloatText} {P : Pool n} {lang : Lang} {p : List Char → Bool}

theorem findElement_leads {name : List Char} {items content : List Item} (h : leadsAll p items)
    (hf : findElement name items = some content) : p (leadingText content) ∧ leadsAll p content := by
  induction items with
  | nil => exact absurd hf (by simp [findElement])
  | cons x items ih =>
    obtain ⟨here, below⟩ := h
    cases x with
    | char c => exact ih below hf
    | element tag inner =>
      rw [findElement] at hf
      split at hf
      · rw [← Option.some.inj hf]
        exact here
      · exact ih below hf

theorem getText_lead {items : List Item} (h : p (leadingText items)) {cs : List Char}
    (hc : getText items = some cs) : p cs := by
  unfold getText at hc
  split at hc
  · exact absurd hc (by simp)
  · rwa [← Option.some.inj hc]

theorem scalarOfText_texts (empty : p []) {ty : CppType n} {text : Option (List Char)} {x : Scalar}
    (h : ∀ cs, text = some cs → p cs) (hx : scalarOfText F lang ty text = some x) :
    scalarAll p x := by
  have plain : ∀ cs, p cs → parseScalar F lang ty cs = some x → scalarAll p x := by
    intro cs hcs hp
    cases x with
    | text s =>
      rw [scalarAll, parseScalar_text hp]
      exact hcs
    | _ => rfl
  cases text with
  | some cs => exact plain cs (h cs rfl) hx
  | none =>
    cases ty with
    | enum e => exact absurd hx (by simp [scalarOfText])
    | _ => exact plain [] empty hx

theorem storeText_texts (empty : p []) {f : Field n} {text : Option (List Char)} {m : Slots}
    (hm : textsAll p m) (h : ∀ cs, text = some cs → p cs) (i : Nat) :
    textsAll p (storeText F lang f i text m) := by
  unfold storeText
  split
  · exact hm
  next x hx =>
    have value := itemsAll_single (v := .scalar x) (scalarOfText_texts empty h hx)
    split
    · exact textsAll_modify hm (fun slot hs => itemsAll_append hs value) i
    · exact textsAll_set hm value i

theorem entryScalar_texts (empty : p []) (f : Field n) {content : List Item}
    (h : leadsAll p content) : valueAll p (entryScalar F lang f content) := by
  have texts : ∀ cs, entryText f.name content = some cs → p cs := by
    intro cs hcs
    obtain ⟨inner, hf, ht⟩ := Option.bind_eq_some_iff.mp hcs
    exact getText_lead (findElement_leads h hf).1 ht
  rw [entryScalar, valueAll]
  cases hx : scalarOfText F lang f.type (entryText f.name content) with
  | none => exact scalarAll_default empty f.type
  | some x => exact scalarOfText_texts empty texts hx

theorem targetMessage_texts (empty : p []) {f : Field n} {i : Nat} {m : Slots} {s : Fin n}
    (hm : textsAll p m) : textsAll p ((P.mutableMessage f i m).getD (P.new s)) := by
  cases held : P.mutableMessage f i m with
  | none => exact textsAll_new empty P s
  | some sub => exact mutableMessage_texts empty hm held

variable (F P lang p) in
/-- An item brings only texts of one kind into a message. -/
structure ReadsTexts (x : Item) : Prop where
  child : ∀ t m, textsAll p m → textsAll p (Xml.readChild F P lang t x m)
  named : ∀ t name m, Xml.readIfNamed F P lang t name x = some m → textsAll p m

theorem readMessage_texts {items : List Item} (h : ∀ x ∈ items, ReadsTexts F P lang p x) (t : Fin n)
    {m : Slots} (hm : textsAll p m) : textsAll p (Xml.readMessage F P lang t items m) := by
  induction items generalizing m with
  | nil =>
    rw [Xml.readMessage]
    exact hm
  | cons x items ih =>
    obtain ⟨here, below⟩ := List.forall_mem_cons.mp h
    rw [Xml.readMessage]
    exact ih below (here.child t m hm)

theorem readNamed_texts (empty : p []) {items : List Item}
    (h : ∀ x ∈ items, ReadsTexts F P lang p x) (t : Fin n) (name : List Char) :
    textsAll p (Xml.readNamed F P lang t name items) := by
  induction items with
  | nil =>
    rw [Xml.readNamed]
    exact textsAll_new empty P t
  | cons x items ih =>
    obtain ⟨here, below⟩ := List.forall_mem_cons.mp h
    rw [Xml.readNamed]
    split
    next m hx => exact here.named t name m hx
    next => exact ih below

theorem readsTexts (empty : p []) {x : Item} (h : leadAll p x) : ReadsTexts F P lang p x := by
  induction x using Item.induct with
  | char c =>
    constructor
    · intro t m hm
      rw [Xml.readChild]
      exact hm
    · intro t name m hx
      exact absurd hx (by simp [Xml.readIfNamed])
  | element tag content ih =>
    obtain ⟨lead, within⟩ : p (leadingText content) ∧ leadsAll p content := h
    have inner : ∀ x ∈ content, ReadsTexts F P lang p x :=
      fun x hx => ih x hx (leadsAll_iff.mp within x hx)
    have message : ∀ s, textsAll p (Xml.readMessage F P lang s content (P.new s)) :=
      fun s => readMessage_texts inner s (textsAll_new empty P s)
    constructor
    · intro t m hm
      rw [Xml.readChild]
      split
      · exact hm
      next i f hf =>
        split
        · exact storeText_texts empty hm (fun cs hcs => getText_lead lead hcs) i
        next s hs =>
          split
          next kf vf entry hfields =>
            refine textsAll_modify hm (fun es hes => putEntry_texts hes ?_) i
            simp only [valueAll, textsAll, itemsAll, Bool.and_true, Bool.and_eq_true]
            refine ⟨entryScalar_texts empty kf within, ?_⟩
            split
            · rw [valueAll]
              exact readNamed_texts empty inner _ _
            · exact entryScalar_texts empty vf within
          next =>
            split
            · exact textsAll_modify hm (fun slot hslot => itemsAll_append hslot
                (itemsAll_single (by rw [valueAll]; exact message s))) i
            · refine textsAll_set hm (itemsAll_single ?_) i
              rw [valueAll]
              exact readMessage_texts inner s (targetMessage_texts empty hm)
    · intro t name m hx
      rw [Xml.readIfNamed] at hx
      split at hx
      · rw [← Option.some.inj hx]
        exact message t
      · exact absurd hx (by simp)

/-- Texts that the elements of a document start with are all that a message gets from it. -/
theorem fromXml_texts (empty : p []) {parse : List Char → Option Item} {text : List Char}
    (h : ∀ name content, parse text = some (.element name content) → leadsAll p content) {t : Fin n}
    {m : Slots} (hm : textsAll p m) : textsAll p (fromXml F P lang parse t text m).2 := by
  unfold fromXml
  split
  next name content found =>
    exact readMessage_texts (fun x hx => readsTexts empty (leadsAll_iff.mp (h name content found) x hx))
      t hm
  next => exact hm

end Texts

section RoundTrip

variable {F : FloatText} {P : Pool n} {parse : List Char → Option Item} {t : Fin n} {m : Slots}

theorem fromXml_eq (named : Named P) (conforms : Conforms parse) (typed : Typed P t m)
    (legal : textsAll legalText m) (lang : Lang) :
    fromXml F P lang parse t (toXml F P t m) (P.new t) =
      (true, Xml.readMessage F P lang t (elementsOf F P (P.desc t).fields m) (P.new t)) := by
  have root := conforms _ _ _ (content_toXml (F := F) named typed legal)
  rw [fromXml, root]

theorem fromXml_toXml (named : Named P) (conforms : Conforms parse) (typed : Typed P t m)
    (legal : textsAll legalText m) (clean : textsAll noReturn m) (lang : Lang) :
    fromXml F P lang parse t (toXml F P t m) (P.new t) = (true, m) := by
  rw [fromXml_eq named conforms typed legal lang]
  have back := readMessage_fields (F := F) lang [] (P.desc t).fields [] m rfl rfl
    (fun _ _ v _ => reread v) typed clean
  rw [List.nil_append, List.nil_append] at back
  rw [Pool.new, back]

/-- What is read has no carriage return in any text, whatever was written. -/
theorem noReturn_of_fromXml (named : Named P) (conforms : Conforms parse) (typed : Typed P t m)
    (legal : textsAll legalText m) {lang : Lang}
    (h : fromXml F P lang parse t (toXml F P t m) (P.new t) = (true, m)) :
    textsAll noReturn m := by
  have root := conforms _ _ _ (content_toXml (F := F) named typed legal)
  have leads : ∀ name content, parse (toXml F P t m) = some (.element name content) →
      leadsAll noReturn content := by
    intro name content found
    cases root.symm.trans found
    exact (elementsOf_noReturn _ fun slot (_ : slot ∈ m) v _ => passesClean v).leads
  have clean : textsAll noReturn (fromXml F P lang parse t (toXml F P t m) (P.new t)).2 :=
    fromXml_texts (by decide) leads (textsAll_new (by decide) P t)
  rwa [h] at clean

end RoundTrip

/-- A message is read back from its document, by either runtime from either runtime's document,
exactly if no text in it has a carriage return. -/
theorem fromXml_toXml_iff (F : FloatText) (P : Pool n) (named : Named P)
    (parse : Lang → List Char → Option Item) (conforms : ∀ lang, Conforms (parse lang)) (lang : Lang)
    (t : Fin n) (m : Slots) (typed : Typed P t m) (legal : textsAll legalText m) :
    fromXml F P lang (parse lang) t (toXml F P t m) (P.new t) = (true, m) ↔ textsAll noReturn m :=
  ⟨noReturn_of_fromXml named (conforms lang) typed legal,
    fun clean => fromXml_toXml named (conforms lang) typed legal clean lang⟩

theorem named_boxPool : Named boxPool := ⟨by decide, by decide⟩

def lineBox (line : List Char) : Slots := box 7 [note 1 (['<'] ++ line ++ [' '])] [] []

theorem typed_lineBox (line : List Char) : Typed boxPool 0 (lineBox line) := by
  have empty : TypedItems boxPool (.message 0) [] := by simp [TypedItems]
  exact @typed_box 7 [(1, ['<'] ++ line ++ [' '])] [] [] (by decide) (by simp) (by simp) empty empty
    (by simp)

theorem fromXml_toXml_iff_lineBox :
    (fromXml zeroFloats boxPool .cpp parseDocument 0 (toXml zeroFloats boxPool 0 (lineBox ['\n']))
        (boxPool.new 0) = (true, lineBox ['\n']) ↔ textsAll noReturn (lineBox ['\n'])) ∧
      (fromXml zeroFloats boxPool .python parseDocument 0
        (toXml zeroFloats boxPool 0 (lineBox ['\n'])) (boxPool.new 0) = (true, lineBox ['\n']) ↔
          textsAll noReturn (lineBox ['\n'])) ∧ textsAll noReturn (lineBox ['\n']) :=
  ⟨fromXml_toXml_iff zeroFloats boxPool named_boxPool (fun _ => parseDocument)
      (fun _ => conforms_parseDocument) .cpp 0 _ (typed_lineBox _) (by decide),
    fromXml_toXml_iff zeroFloats boxPool named_boxPool (fun _ => parseDocument)
      (fun _ => conforms_parseDocument) .python 0 _ (typed_lineBox _) (by decide), by decide⟩

/-- A carriage return in a text comes back as a line feed. -/
theorem not_fromXml_toXml_returnBox :
    Named boxPool ∧ Conforms parseDocument ∧ Typed boxPool 0 (lineBox ['\r']) ∧
      textsAll legalText (lineBox ['\r']) ∧
      ∀ lang, fromXml zeroFloats boxPool lang parseDocument 0
        (toXml zeroFloats boxPool 0 (lineBox ['\r'])) (boxPool.new 0) ≠ (true, lineBox ['\r']) := by
  have typed := typed_lineBox ['\r']
  refine ⟨named_boxPool, conforms_parseDocument, typed, by decide, fun lang h => ?_⟩
  have clean := noReturn_of_fromXml named_boxPool conforms_parseDocument typed (by decide) h
  exact absurd clean (by decide)

example : fromXml zeroFloats boxPool .python parseDocument 0
    (toXml zeroFloats boxPool 0 (lineBox ['\r'])) (boxPool.new 0) = (true, lineBox ['\n']) := rfl

end Harpia
