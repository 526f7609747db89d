import Harpia.YamlOutline

namespace Harpia

open Text Reflection

variable {n : Nat}

theorem unescape_cons {c : Char} (h : c ≠ '\\') (cs : List Char) :
    unescape (c :: cs) = c :: unescape cs := by
  rw [unescape.eq_def]
  split
  next heq => exact absurd (List.cons.inj heq).1 h
  next heq =>
    obtain ⟨rfl, rfl⟩ := List.cons.inj heq
    rfl
  next heq => exact absurd heq (by simp)

theorem unescape_quoteChars (s : List Char) : unescape (s.flatMap quoteChar) = s := by
  induction s with
  | nil => rfl
  | cons c s ih =>
    rw [List.flatMap_cons]
    rcases quoteChar_cases c with ⟨d, hq, -, hd⟩ | ⟨hq, hc, -⟩
    · rw [hq, List.cons_append, List.singleton_append, unescape, ih, hd]
    · rw [hq, List.singleton_append, unescape_cons hc, ih]

theorem unquote_quote (s : List Char) : unquote (quote s) = s := by
  have last : (quote s).getLast? = some '"' := by
    rw [quote, ← List.cons_append, List.getLast?_append]
    rfl
  have inner : ((quote s).drop 1).dropLast = s.flatMap quoteChar := by simp [quote]
  rw [unquote, if_pos ⟨by simp [quote], rfl, last⟩, inner, unescape_quoteChars]

theorem unquote_of_head {c : Char} {cs : List Char} (h : c ≠ '"') : unquote (c :: cs) = c :: cs := by
  simp [unquote, h]

theorem unquote_name {cs : List Char} (h : isName cs) : unquote cs = cs := by
  obtain ⟨⟨c, rest, rfl⟩, word⟩ := isName_cons h
  exact unquote_of_head (ne_of_isWord (word c List.mem_cons_self) (by decide))

theorem unquote_intText (k : Int) : unquote (intText k) = intText k := by
  unfold intText
  split
  · exact unquote_of_head (by decide)
  · exact unquote_name (isName_decimal _)

/-- What the writer puts on a line for a value is read back as that value. -/
theorem parseScalar_inlineText (F : FloatText) (lang : Lang) {ty : CppType n} {x : Scalar}
    (h : CanHold ty x) : parseScalar F lang ty (unquote (inlineText F ty x)) = some x ∧
      overlong ty (unquote (inlineText F ty x)) = false := by
  have text : unquote (inlineText F ty x) = scalarText F ty x := by
    cases ty <;> cases x <;> simp only [CanHold] at h
    case int32.int k => exact unquote_intText k
    case int64.int k => exact unquote_intText k
    case uint32.int k => exact unquote_intText k
    case uint64.int k => exact unquote_intText k
    case bool.bool b =>
      have word : isName (boolText b) := by cases b <;> decide
      exact unquote_name word
    case enum.int e k => exact unquote_name (find?_enumName h).2
    case string.text s => exact unquote_quote s
  rw [text]
  exact ⟨parseScalar_scalarText F lang h, overlong_scalarText F h⟩

theorem scanQuoted_cons {c : Char} (h : c ≠ '\\') (h' : c ≠ '"') (cs : List Char) :
    scanQuoted (c :: cs) = (c :: (scanQuoted cs).1, (scanQuoted cs).2) := by
  rw [scanQuoted.eq_def]
  split
  next heq => exact absurd (List.cons.inj heq).1 h
  next heq => exact absurd (List.cons.inj heq).1 h'
  next heq =>
    obtain ⟨rfl, rfl⟩ := List.cons.inj heq
    rfl
  next heq => exact absurd heq (by simp)

theorem scanQuoted_quoteChars (s tail : List Char) :
    scanQuoted (s.flatMap quoteChar ++ '"' :: tail) = (s.flatMap quoteChar ++ ['"'], tail) := by
  induction s with
  | nil => rfl
  | cons c s ih =>
    rw [List.flatMap_cons]
    rcases quoteChar_cases c with ⟨d, hq, -, -⟩ | ⟨hq, hc, hq', -⟩
    · rw [hq]
      simp only [List.cons_append, List.nil_append, scanQuoted, ih]
    · rw [hq]
      simp only [List.cons_append, List.nil_append, scanQuoted_cons hc hq', ih]

theorem afterColon_cons (cs : List Char) : afterColon (':' :: cs) = cs.dropWhile (· = ' ') := by
  simp [afterColon]

theorem splitKv_of_head {c : Char} {cs : List Char} (h : c ≠ '"') :
    splitKv (c :: cs) = ((c :: cs).takeWhile (· ≠ ':'), afterColon (c :: cs)) := by
  rw [splitKv.eq_def]
  split
  next heq => exact absurd (List.cons.inj heq).1 h
  next => rfl

theorem splitKv_bare {key rest : List Char} (hne : ∀ c ∈ key.head?, c ≠ '"') (hk : key ≠ [])
    (hc : ∀ c ∈ key, c ≠ ':') :
    splitKv (key ++ ':' :: rest) = (key, rest.dropWhile (· = ' ')) := by
  have before : ∀ c ∈ key, decide (c ≠ ':') := fun c h => by simpa using hc c h
  have stop : ∀ c ∈ (':' :: rest).head?, decide (c ≠ ':') = false := by simp
  obtain ⟨taken, dropped⟩ := span_append before stop
  cases key with
  | nil => exact absurd rfl hk
  | cons c cs =>
    rw [List.cons_append] at taken dropped ⊢
    rw [splitKv_of_head (hne c rfl), taken, afterColon, dropped]
    rfl

/-- A line splits at the colon behind its key. -/
theorem splitKv_inline {key : List Char} (h : Inline key) (rest : List Char) :
    splitKv (key ++ ':' :: rest) = (key, rest.dropWhile (· = ' ')) := by
  have noColon : ∀ {cs : List Char}, isName cs → ∀ c ∈ cs, c ≠ ':' :=
    fun hn c hc => ne_of_isWord ((isName_cons hn).2 c hc) (by decide)
  cases h with
  | quoted s =>
    have shape : quote s ++ ':' :: rest = '"' :: (s.flatMap quoteChar ++ '"' :: ':' :: rest) := by
      simp [quote]
    rw [shape, splitKv, scanQuoted_quoteChars, afterColon_cons]
    rfl
  | bare h =>
    obtain ⟨⟨c, cs, rfl⟩, word⟩ := isName_cons h
    exact splitKv_bare (by simpa using ne_of_isWord (word c List.mem_cons_self) (by decide))
      (by simp) (noColon h)
  | negative h =>
    refine splitKv_bare (by simp) (by simp) fun c hc => ?_
    rcases List.mem_cons.mp hc with rfl | hc
    · decide
    · exact noColon h c hc

theorem isSeqItem_inline {key : List Char} (h : Inline key) (rest : List Char) :
    isSeqItem (key ++ ':' :: rest) = false := by
  cases h with
  | quoted s => rfl
  | bare h =>
    obtain ⟨⟨c, cs, rfl⟩, word⟩ := isName_cons h
    have hc : c ≠ '-' := ne_of_isWord (word c List.mem_cons_self) (by decide)
    simp only [List.cons_append]
    unfold isSeqItem
    split
    next heq => exact absurd (List.cons.inj heq).1 hc
    next heq => exact absurd (List.cons.inj heq).1 hc
    next => rfl
  | negative h =>
    obtain ⟨⟨c, cs, rfl⟩, word⟩ := isName_cons h
    have hc : c ≠ ' ' := ne_of_isWord (word c List.mem_cons_self) (by decide)
    simp only [List.cons_append]
    unfold isSeqItem
    split
    next heq => simp at heq
    next heq => exact absurd (List.cons.inj (List.cons.inj heq).2).1 hc
    next => rfl

theorem itemText_dash {cs : List Char} (h : ∀ c ∈ cs.head?, c ≠ ' ') :
    itemText ('-' :: ' ' :: cs) = cs := by
  have stop : ∀ c ∈ cs.head?, decide (c = ' ') = false := by simpa using h
  simpa [itemText] using dropWhile_of_head stop

section Reading

variable {F : FloatText} {P : Pool n} {lang : Lang}

/-- The lines behind a block stand before its column. -/
def Ends (indent : Nat) (rest : List Ln) : Prop := ∀ l ∈ rest.head?, l.indent < indent

theorem read_ends (bound : Nat) (b : Block n) {rest : List Ln} (h : Ends b.indent rest)
    (m : Slots) (hits : Nat) :
    read F P lang (bound + 1) b ⟨rest, m, hits⟩ = .ok ⟨rest, m, hits⟩ := by
  cases rest with
  | nil => rfl
  | cons l rest =>
    have column := h l rfl
    have other : b.holds l = false := by
      have ne : l.indent ≠ b.indent := by omega
      simp [Block.holds, ne]
    simp [read, readStep, other]

theorem read_line (bound : Nat) {b : Block n} {l : Ln} (h : b.holds l) (lines : List Ln)
    (m : Slots) (hits : Nat) :
    read F P lang (bound + 1) b ⟨l :: lines, m, hits⟩ =
      readLine F P lang (read F P lang bound) b l.s ⟨lines, m, hits⟩ >>= read F P lang bound b := by
  simp [read, readStep, h]

theorem holds_mapping {indent : Nat} {t : Fin n} {key : List Char} (h : Inline key)
    (rest : List Char) : (Block.mapping indent t).holds ⟨indent, key ++ ':' :: rest⟩ := by
  simp [Block.holds, Block.indent, isSeqItem_inline h rest]

theorem inline_value {txt : List Char} (h : Inline txt) :
    (' ' :: txt).dropWhile (· = ' ') = txt ∧ txt ≠ [] ∧ isFlow txt = false := by
  obtain ⟨c, rest, rfl, hs, hb, hl⟩ := h.head
  refine ⟨?_, by simp, ?_⟩
  · simp [hs]
  · simp [isFlow, hb, hl]

variable {t : Fin n} {f : Field n} {i : Nat}

/-- A scalar field on its line. -/
theorem applyEntry_scalar (hf : (P.desc t).fields[i]? = some f) (single : f.repeated = false)
    {x : Scalar} (hx : CanHold f.type x) (rec : Read n) (indent : Nat) (st : ReadState) :
    applyEntry F P lang rec indent t (f.name ++ ':' :: ' ' :: inlineText F f.type x) st =
      .ok { st with msg := st.msg.set i [.scalar x], hits := st.hits + 1 } := by
  have name := P.names_word t f (List.mem_of_getElem? hf)
  obtain ⟨value, nonempty, flow⟩ := inline_value (inline_inlineText F hx)
  simp only [applyEntry, splitKv_inline (.bare name), unquote_name name, P.find?_name t hf, value,
    ne_eq, nonempty, not_false_eq_true, ↓reduceIte, flow, Bool.false_eq_true, setScalar, storeScalar,
    parseScalar_inlineText F lang hx, Bool.false_eq_true, and_false, single, setValue, and_self, orAbort, Except.map]

theorem applyEntry_flow (hf : (P.desc t).fields[i]? = some f) {val : List Char}
    (flow : val = ['{', '}'] ∨ val = ['[', ']']) (rec : Read n) (indent : Nat) (st : ReadState) :
    applyEntry F P lang rec indent t (f.name ++ ':' :: ' ' :: val) st = .ok st := by
  have name := P.names_word t f (List.mem_of_getElem? hf)
  have value : (' ' :: val).dropWhile (· = ' ') = val ∧ val ≠ [] ∧ isFlow val := by
    rcases flow with rfl | rfl <;> decide
  simp only [applyEntry, splitKv_inline (.bare name), unquote_name name, P.find?_name t hf, value,
    ne_eq, not_false_eq_true, ↓reduceIte]

/-- A field whose lines stand below its key. -/
theorem applyEntry_block (hf : (P.desc t).fields[i]? = some f) (rec : Read n) {indent : Nat}
    {child : Ln} {lines : List Ln} (deeper : indent < child.indent) (m : Slots) (hits : Nat) :
    applyEntry F P lang rec indent t (f.name ++ [':']) ⟨child :: lines, m, hits⟩ =
      if isSeqItem child.s then rec (.sequence child.indent i f) ⟨child :: lines, m, hits⟩
      else if P.isMap f then rec (.map child.indent i f) ⟨child :: lines, m, hits⟩
      else
        match f.singleMessage? with
        | some s => readSub P rec (.mapping child.indent s) f i ⟨child :: lines, m, hits⟩
        | none => .ok ⟨skipBlock child.indent (child :: lines), m, hits⟩ := by
  have name := P.names_word t f (List.mem_of_getElem? hf)
  have split : splitKv (f.name ++ [':']) = (f.name, []) := splitKv_inline (.bare name) []
  have above : ¬ child.indent ≤ indent := by omega
  cases hs : f.singleMessage? with
  | none => simp [applyEntry, split, unquote_name name, P.find?_name t hf, above, hs]
  | some s => simp [applyEntry, split, unquote_name name, P.find?_name t hf, above, hs]

theorem canHold_notMessage {ty : CppType n} {x : Scalar} (h : CanHold ty x) :
    ty.messageType? = none := by
  cases ty <;> cases x <;> simp_all [CanHold, CppType.messageType?]

theorem readItem_scalar (many : f.repeated) {x : Scalar} (hx : CanHold f.type x) (rec : Read n)
    (indent : Nat) (st : ReadState) :
    readItem F P lang rec indent f i ('-' :: ' ' :: inlineText F f.type x) st =
      .ok { st with msg := st.msg.modify i (· ++ [.scalar x]), hits := st.hits + 1 } := by
  have scalar := canHold_notMessage hx
  have plain : P.isMap f = false := notMap_of_notMessage scalar
  obtain ⟨c, cs, hcs, hs, -, hl⟩ := (inline_inlineText F hx).head
  have text : itemText ('-' :: ' ' :: inlineText F f.type x) = inlineText F f.type x :=
    itemText_dash (by simp [hcs, hs])
  have kept : ¬ (inlineText F f.type x = [] ∨ inlineText F f.type x = ['[', ']']) := by
    simp [hcs, hl]
  simp only [readItem, text, plain, Bool.false_eq_true, and_false, ↓reduceIte, scalar, kept, many,
    Bool.or_true, setScalar, storeScalar, parseScalar_inlineText F lang hx, Bool.false_eq_true, and_false, addValue, and_self,
    orAbort, Except.map]

end Reading

section Keyed

variable (P : Pool n)

/-- The field that every message of the generator starts with. -/
def Descriptor.KeyFirst (d : Descriptor n) : Prop :=
  match d.fields with
  | f :: _ => f.name = ['H', 'A', 'R', 'P', 'I', 'A', '_', 'I', 'D'] ∧ f.repeated = false ∧
      f.presence = false ∧ f.type.isMessage = false
  | [] => False

/-- The types that the fields of a type lead to. -/
inductive Reaches (t : Fin n) : Fin n → Prop
  | here : Reaches t t
  | field {s u : Fin n} {f : Field n} (h : Reaches t s) (hf : f ∈ (P.desc s).fields)
      (hu : f.type.messageType? = some u) : Reaches t u

/-- Every message type that a type leads to starts with its key. -/
def KeyedFrom (t : Fin n) : Prop :=
  ∀ s, Reaches P t s → (P.desc s).mapEntry = false → Descriptor.KeyFirst (P.desc s)

variable {P}

theorem KeyedFrom.field {t u : Fin n} {f : Field n} (h : KeyedFrom P t)
    (hf : f ∈ (P.desc t).fields) (hu : f.type.messageType? = some u) : KeyedFrom P u := by
  have reach : ∀ s, Reaches P u s → Reaches P t s := by
    intro s hs
    induction hs with
    | here => exact .field .here hf hu
    | field _ hg hv ih => exact .field ih hg hv
  exact fun s hs => h s (reach s hs)

end Keyed

theorem modify_mid (a b : Slots) (slot : List Value) (g : List Value → List Value) :
    (a ++ slot :: b).modify a.length g = a ++ g slot :: b := by
  induction a with
  | nil => rfl
  | cons x a ih => simpa [List.modify_succ_cons] using ih

theorem set_mid (a b : Slots) (slot slot' : List Value) :
    (a ++ slot :: b).set a.length slot' = a ++ slot' :: b := by
  simp

section Messages

variable (F : FloatText) (P : Pool n) (lang : Lang)

/-- The lines of a message are read back into it, from any field on. -/
def FieldsRead (s : Fin n) (slots : Slots) : Prop :=
  ∀ doneF todoF doneS todoS, (P.desc s).fields = doneF ++ todoF → slots = doneS ++ todoS →
    doneF.length = doneS.length →
    ∀ indent rest bound hits, Ends indent rest →
      (outlineFields F P indent todoF todoS ++ rest).length < bound →
      ∃ hits', hits ≤ hits' ∧ read F P lang bound (.mapping indent s)
        ⟨outlineFields F P indent todoF todoS ++ rest, doneS ++ todoF.map Field.initial, hits⟩ =
          .ok ⟨rest, slots, hits'⟩

def ReadsBack (v : Value) : Prop :=
  ∀ s slots, v = .message slots → KeyedFrom P s → (P.desc s).mapEntry = false →
    TypedFields P s (P.desc s).fields slots → FieldsRead F P lang s slots

variable {F P lang}

variable (F) in
/-- A message with its key first has that key on its first line. -/
theorem keyFirst_outline {s : Fin n} {slots : Slots} (hk : Descriptor.KeyFirst (P.desc s))
    (h : TypedFields P s (P.desc s).fields slots) :
    ∃ kf fields x more, (P.desc s).fields = kf :: fields ∧ slots = [.scalar x] :: more ∧
      CanHold kf.type x ∧ kf.repeated = false ∧
      ∀ indent, outlineFields F P indent (P.desc s).fields slots =
        ⟨indent, kf.name ++ ':' :: ' ' :: inlineText F kf.type x⟩ ::
          outlineFields F P indent fields more := by
  unfold Descriptor.KeyFirst at hk
  split at hk
  next kf fields hfields =>
    obtain ⟨-, single, presence, scalar⟩ := hk
    rw [hfields] at h
    cases slots with
    | nil => simp [TypedFields] at h
    | cons slot more =>
      rw [TypedFields] at h
      obtain ⟨v, rfl⟩ := h.1.exists_one single (.inl presence)
      obtain ⟨x, rfl, hx⟩ := typed_scalar scalar (by simpa [TypedItems] using h.2.1)
      have plain : P.isMap kf = false := notMap_of_notMessage (canHold_notMessage hx)
      refine ⟨kf, fields, x, more, hfields, rfl, hx, single, fun indent => ?_⟩
      rw [hfields, outlineFields, outlineField]
      simp [plain, single, outlineValue, headed]
  next => exact absurd hk id

theorem addMessage_mid {s : Fin n} {f : Field n} (hs : f.type.messageType? = some s)
    (many : f.repeated) (a b : Slots) (es : List Value) (v : Value) :
    addValue .message f a.length v (a ++ es :: b) = some (a ++ (es ++ [v]) :: b) := by
  have kind : f.type.kind = .message := by
    cases hty : f.type <;> simp_all [CppType.messageType?, CppType.kind]
  simp [addValue, many, kind, modify_mid]

/-- The key of an element, on the line of its dash. -/
theorem firstEntry_key {s : Fin n} {kf : Field n} (hf : (P.desc s).fields[0]? = some kf)
    (single : kf.repeated = false) {x : Scalar} (hx : CanHold kf.type x) (rec : Read n)
    (indent : Nat) (st : ReadState) :
    firstEntry F P lang rec indent s (kf.name ++ ':' :: ' ' :: inlineText F kf.type x) st =
      .ok { st with msg := st.msg.set 0 [.scalar x], hits := st.hits + 1 } := by
  have name := P.names_word s kf (List.mem_of_getElem? hf)
  obtain ⟨value, nonempty, flow⟩ := inline_value (inline_inlineText F hx)
  have kept : ¬ (kf.name ++ ':' :: ' ' :: inlineText F kf.type x = [] ∨
      kf.name ++ ':' :: ' ' :: inlineText F kf.type x = ['{', '}']) := by
    obtain ⟨⟨c, cs, hc⟩, word⟩ := isName_cons name
    have brace : c ≠ '{' := ne_of_isWord (word c (by simp [hc])) (by decide)
    simp [hc, brace]
  simp only [firstEntry, kept, ↓reduceIte, splitKv_inline (.bare name), unquote_name name,
    P.find?_name s hf, value, ne_eq, nonempty, not_false_eq_true, flow, Bool.false_eq_true,
    setScalar, storeScalar, parseScalar_inlineText F lang hx, Bool.false_eq_true, and_false, single, setValue, and_self, orAbort,
    Except.map]

/-- An element that is a message: its key stands behind the dash, its other fields below. -/
theorem readItem_message {s : Fin n} {f : Field n} (hs : f.type.messageType? = some s)
    (many : f.repeated) (plain : P.isMap f = false) {slots : Slots} {kf : Field n}
    {fields : List (Field n)} {x : Scalar} {more : Slots}
    (hfields : (P.desc s).fields = kf :: fields) (hslots : slots = [.scalar x] :: more)
    (hx : CanHold kf.type x) (single : kf.repeated = false) (back : FieldsRead F P lang s slots)
    {indent bound : Nat} {rest : List Ln} (ends : Ends (indent + 2) rest)
    (hb : (outlineFields F P (indent + 2) fields more ++ rest).length < bound) (a b : Slots)
    (es : List Value) (hits : Nat) :
    ∃ hits', hits ≤ hits' ∧ readItem F P lang (read F P lang bound) indent f a.length
      ('-' :: ' ' :: (kf.name ++ ':' :: ' ' :: inlineText F kf.type x))
      ⟨outlineFields F P (indent + 2) fields more ++ rest, a ++ es :: b, hits⟩ =
        .ok ⟨rest, a ++ (es ++ [.message slots]) :: b, hits'⟩ := by
  have hf : (P.desc s).fields[0]? = some kf := by simp [hfields]
  have name := P.names_word s kf (List.mem_of_getElem? hf)
  have text : itemText ('-' :: ' ' :: (kf.name ++ ':' :: ' ' :: inlineText F kf.type x)) =
      kf.name ++ ':' :: ' ' :: inlineText F kf.type x := by
    obtain ⟨c, cs, hc, hspace⟩ := (Inline.bare name).keyOk.first
    exact itemText_dash (by simp [hc, hspace])
  have start : (P.new s).set 0 [.scalar x] = [[.scalar x]] ++ fields.map Field.initial := by
    simp [Pool.new, hfields]
  obtain ⟨hits', hle, hread⟩ := back [kf] fields [[.scalar x]] more hfields hslots rfl (indent + 2)
    rest bound (hits + 2) ends hb
  refine ⟨hits', by omega, ?_⟩
  simp only [readItem, plain, Bool.false_eq_true, and_false, ↓reduceIte, hs,
    addMessage_mid hs many, orAbort, text, bind, Except.bind, firstEntry_key hf single hx, start,
    hread, modify_mid, List.dropLast_concat]

theorem Ends.mono {indent indent' : Nat} {rest : List Ln} (h : Ends indent rest)
    (hle : indent ≤ indent') : Ends indent' rest := fun l hl => (h l hl).trans_le hle

theorem ends_append {indent column : Nat} {lines rest : List Ln}
    (hl : ∀ l ∈ lines.head?, l.indent = column) (hc : column < indent) (hr : Ends indent rest) :
    Ends indent (lines ++ rest) :=
  head_append (fun l h => hl l h ▸ hc) hr

theorem notEntry_of_notMap {f : Field n} {s : Fin n} (plain : P.isMap f = false)
    (hs : f.type.messageType? = some s) : (P.desc s).mapEntry = false := by
  cases hty : f.type <;> simp_all [CppType.messageType?, Pool.isMap]

/-- The elements of a repeated field. -/
theorem readItems {f : Field n} (many : f.repeated) (plain : P.isMap f = false)
    (keyed : ∀ s, f.type.messageType? = some s → KeyedFrom P s) {indent : Nat} {rest : List Ln}
    (ends : Ends indent rest) {vs : List Value} (typed : TypedItems P f.type vs)
    (back : ∀ v ∈ vs, ReadsBack F P lang v) (a b : Slots) (es : List Value) {bound : Nat}
    (hb : (outlineItems F P indent f vs ++ rest).length < bound) (hits : Nat) :
    ∃ hits', hits ≤ hits' ∧ read F P lang bound (.sequence indent a.length f)
      ⟨outlineItems F P indent f vs ++ rest, a ++ es :: b, hits⟩ =
        .ok ⟨rest, a ++ (es ++ vs) :: b, hits'⟩ := by
  obtain ⟨bound, rfl⟩ : ∃ k, bound = k + 1 := ⟨bound - 1, by omega⟩
  induction vs generalizing es bound hits with
  | nil =>
    refine ⟨hits, le_rfl, ?_⟩
    simpa [outlineItems] using read_ends bound (.sequence indent a.length f) ends (a ++ es :: b) hits
  | cons v vs ih =>
    rw [TypedItems] at typed
    obtain ⟨here, below⟩ := List.forall_mem_cons.mp back
    have dash : ∀ cs, (Block.sequence indent a.length f).holds ⟨indent, '-' :: ' ' :: cs⟩ :=
      fun cs => by simp [Block.holds, Block.indent, isSeqItem]
    have after : Ends (indent + 2) (outlineItems F P indent f vs ++ rest) :=
      ends_append (outlineItems_head indent f vs) (by omega) (ends.mono (by omega))
    rw [outlineItems, List.append_assoc] at hb ⊢
    cases v with
    | scalar x =>
      rw [TypedValue] at typed
      have rest' : (outlineItems F P indent f vs ++ rest).length < bound := by
        simpa [outlineItem] using hb
      obtain ⟨k, rfl⟩ : ∃ k, bound = k + 1 := ⟨bound - 1, by omega⟩
      obtain ⟨hits', hle, hread⟩ := ih typed.2 below (es ++ [.scalar x]) (hits + 1) k rest'
      refine ⟨hits', by omega, ?_⟩
      rw [outlineItem, List.singleton_append, read_line (k + 1) (dash _), readLine,
        readItem_scalar many typed.1]
      simpa [bind, Except.bind, modify_mid] using hread
    | message slots =>
      obtain ⟨s, hs, fields⟩ := typed_message typed.1
      have message := notEntry_of_notMap plain hs
      obtain ⟨kf, todo, x, more, hfields, hslots, hx, single, lines⟩ :=
        keyFirst_outline F (keyed s hs s .here message) fields
      have shape : outlineItem F P indent f (.message slots) =
          ⟨indent, '-' :: ' ' :: (kf.name ++ ':' :: ' ' :: inlineText F kf.type x)⟩ ::
            outlineFields F P (indent + 2) todo more := by
        simp only [outlineItem, hs, lines, dashed]
      rw [shape, List.cons_append] at hb ⊢
      have inside : (outlineFields F P (indent + 2) todo more ++
          (outlineItems F P indent f vs ++ rest)).length < bound := by simpa using hb
      have rest' : (outlineItems F P indent f vs ++ rest).length < bound := by
        rw [List.length_append] at inside
        omega
      obtain ⟨k, rfl⟩ : ∃ k, bound = k + 1 := ⟨bound - 1, by omega⟩
      obtain ⟨h₁, hle₁, item⟩ := readItem_message hs many plain hfields hslots hx single
        (here s slots rfl (keyed s hs) message fields) after inside a b es hits
      obtain ⟨hits', hle, hread⟩ := ih typed.2 below (es ++ [.message slots]) h₁ k rest'
      refine ⟨hits', by omega, ?_⟩
      rw [read_line (k + 1) (dash _), readLine, item]
      simpa [bind, Except.bind] using hread

/-- An entry of a map type: its fields, and the key and the value it holds. -/
structure EntryOf (P : Pool n) (f : Field n) (s : Fin n) (kf vf : Field n) : Prop where
  type : f.type.messageType? = some s
  fields : (P.desc s).fields = [kf, vf]
  keySingle : kf.repeated = false
  valueSingle : vf.repeated = false

theorem entryKey_mk (k : Scalar) (value : List Value) :
    entryKey (.message [[.scalar k], value]) = some k := rfl

/-- An entry, from the reading of its value on. -/
theorem readEntry_eq {f : Field n} {s : Fin n} {kf vf : Field n} (entry : EntryOf P f s kf vf)
    (many : f.repeated) {k : Scalar} (hk : CanHold kf.type k) (inline : List Char)
    {value : List Value}
    {rec : Read n} {indent : Nat} {lines rest : List Ln} {hits hits' : Nat} (a b : Slots)
    {es : List Value} (fresh : some k ∉ es.map entryKey)
    (hv : readEntryValue F P lang rec indent vf (inline.dropWhile (· = ' '))
      ⟨lines, clearValue P lang vf [[.scalar k], vf.initial], hits + 1⟩ =
        .ok ⟨rest, [[.scalar k], value], hits'⟩) :
    readEntry F P lang rec indent f a.length (inlineText F kf.type k ++ ':' :: inline)
      ⟨lines, a ++ es :: b, hits⟩ =
        .ok ⟨rest, a ++ (es ++ [.message [[.scalar k], value]]) :: b, hits'⟩ := by
  have start : (P.new s).set 0 [.scalar k] = [[.scalar k], vf.initial] := by
    simp [Pool.new, entry.fields]
  have key : storeScalar F lang kf 0 (inlineText F kf.type k) false (P.new s) =
      .ok ([[.scalar k], vf.initial], 1) := by
    simp only [storeScalar, parseScalar_inlineText F lang hk, and_false, Bool.false_eq_true, ↓reduceIte,
      setValue, entry.keySingle, and_self, start, orAbort, Except.map]
  have absent : entryKey (.message [[.scalar k], value]) ∉ es.map entryKey := fresh
  simp only [readEntry, entry.type, entry.fields, addMessage_mid entry.type many, orAbort, bind,
    Except.bind, splitKv_inline (inline_inlineText F hk), key, hv]
  cases lang with
  | cpp => simp only [modify_mid, List.dropLast_concat]
  | python => simp only [modify_mid, putEntry_new absent]

variable (F P lang) in
theorem readEntryValue_scalar {vf : Field n} (single : vf.repeated = false) {x : Scalar}
    (hx : CanHold vf.type x) (rec : Read n) (indent : Nat) (lines : List Ln) (key : List Value)
    (hits : Nat) :
    readEntryValue F P lang rec indent vf ((' ' :: inlineText F vf.type x).dropWhile (· = ' '))
      ⟨lines, clearValue P lang vf [key, vf.initial], hits⟩ =
        .ok ⟨lines, [key, [.scalar x]], hits⟩ := by
  obtain ⟨value, nonempty, flow⟩ := inline_value (inline_inlineText F hx)
  have kept : clearValue P lang vf [key, vf.initial] = [key, vf.initial] := by
    cases lang <;> simp [clearValue, canHold_notMessage hx]
  simp only [readEntryValue, value, ne_eq, nonempty, not_false_eq_true, ↓reduceIte, flow,
    Bool.false_eq_true, storeScalar, parseScalar_inlineText F lang hx, Bool.false_eq_true, and_false, kept, setValue, single,
    and_self, orAbort, Except.map]
  rfl

variable (F lang) in
theorem readEntryValue_message {s u : Fin n} {vf : Field n} (hvf : vf ∈ (P.desc s).fields)
    (single : vf.repeated = false) (hu : vf.type.messageType? = some u) {rec : Read n}
    (indent : Nat) {child : Ln} {lines rest : List Ln} (deeper : indent < child.indent)
    (key : List Value) {sub : Slots} {hits hits' : Nat}
    (hr : rec (.mapping child.indent u) ⟨child :: lines, P.new u, hits⟩ = .ok ⟨rest, sub, hits'⟩) :
    readEntryValue F P lang rec indent vf ([].dropWhile (· = ' '))
      ⟨child :: lines, clearValue P lang vf [key, vf.initial], hits⟩ =
        .ok ⟨rest, [key, [.message sub]], hits'⟩ := by
  have presence : vf.presence := P.presence_message s vf hvf single (by simp [CppType.isMessage, hu])
  have unset : vf.initial = [] := by simp [Field.initial, presence]
  have target : P.mutableMessage vf 1 (clearValue P lang vf [key, vf.initial]) = some (P.new u) := by
    cases lang <;> simp [Pool.mutableMessage, clearValue, hu, single, unset]
  have put : (clearValue P lang vf [key, vf.initial]).set 1 [.message sub] = [key, [.message sub]] := by
    cases lang <;> simp [clearValue, hu, unset]
  simp only [readEntryValue, List.dropWhile_nil, ne_eq, not_true_eq_false, ↓reduceIte, hu, deeper,
    readSub, target, orAbort, bind, Except.bind, hr, put]

/-- A value and all that it holds are read back. -/
structure RereadBelow (F : FloatText) (P : Pool n) (lang : Lang) (v : Value) : Prop where
  here : ReadsBack F P lang v
  below : ∀ slots, v = .message slots → ∀ slot ∈ slots, ∀ w ∈ slot, ReadsBack F P lang w

/-- The entries of a map. -/
theorem readEntries {f : Field n} (many : f.repeated) (hm : P.isMap f)
    (keyed : ∀ s, f.type.messageType? = some s → KeyedFrom P s) {indent : Nat} {rest : List Ln}
    (ends : Ends indent rest) {vs : List Value} (typed : TypedItems P f.type vs)
    (back : ∀ v ∈ vs, RereadBelow F P lang v) (a b : Slots) (es : List Value)
    (fresh : ((es ++ vs).map entryKey).Nodup) {bound : Nat}
    (hb : (outlineEntries F P indent f vs ++ rest).length < bound) (hits : Nat) :
    ∃ hits', hits ≤ hits' ∧ read F P lang bound (.map indent a.length f)
      ⟨outlineEntries F P indent f vs ++ rest, a ++ es :: b, hits⟩ =
        .ok ⟨rest, a ++ (es ++ vs) :: b, hits'⟩ := by
  obtain ⟨bound, rfl⟩ : ∃ k, bound = k + 1 := ⟨bound - 1, by omega⟩
  induction vs generalizing es bound hits with
  | nil =>
    refine ⟨hits, le_rfl, ?_⟩
    simpa [outlineEntries] using read_ends bound (.map indent a.length f) ends (a ++ es :: b) hits
  | cons v vs ih =>
    rw [TypedItems] at typed
    obtain ⟨s, kf, vf, k, w, hs, hfields, rfl, hk, hw, keySingle, valueSingle⟩ := typed_entry hm typed.1
    obtain ⟨here, below⟩ := List.forall_mem_cons.mp back
    have entry : EntryOf P f s kf vf := ⟨hs, hfields, keySingle, valueSingle⟩
    have hvf : vf ∈ (P.desc s).fields := by simp [hfields]
    have key : ∀ inline, (Block.map indent a.length f).holds
        ⟨indent, inlineText F kf.type k ++ ':' :: inline⟩ := by
      intro inline
      simp [Block.holds, Block.indent, isSeqItem_inline (inline_inlineText F hk) inline]
    have absent : some k ∉ es.map entryKey := by
      rw [List.map_append, List.map_cons] at fresh
      exact fun hmem => List.disjoint_of_nodup_append fresh hmem List.mem_cons_self
    have later : ((es ++ [Value.message [[.scalar k], [w]]] ++ vs).map entryKey).Nodup := by
      simpa using fresh
    have after : Ends (indent + 2) (outlineEntries F P indent f vs ++ rest) :=
      ends_append (outlineEntries_head indent f vs) (by omega) (ends.mono (by omega))
    have line : outlineEntry F P indent f (.message [[.scalar k], [w]]) =
        outlineValue F P indent (inlineText F kf.type k) vf w := by
      simp only [outlineEntry, hs, Option.map_some, hfields, outlineEntryValue, scalarOf]
    rw [outlineEntries, List.append_assoc, line] at hb ⊢
    cases w with
    | scalar x =>
      rw [TypedValue] at hw
      have rest' : (outlineEntries F P indent f vs ++ rest).length < bound := by
        simpa [outlineValue, headed] using hb
      obtain ⟨j, rfl⟩ : ∃ j, bound = j + 1 := ⟨bound - 1, by omega⟩
      have value := readEntryValue_scalar F P lang valueSingle hw (read F P lang (j + 1)) indent
        (outlineEntries F P indent f vs ++ rest) [.scalar k] (hits + 1)
      have read := readEntry_eq entry many hk _ a b absent value
      obtain ⟨hits', hle, hread⟩ := ih typed.2 below _ later (hits + 1) j rest'
      refine ⟨hits', by omega, ?_⟩
      rw [outlineValue, headed, List.singleton_append, read_line (j + 1) (key _), readLine, read]
      simpa [bind, Except.bind] using hread
    | message sub =>
      obtain ⟨u, hu, fields⟩ := typed_message hw
      have message : (P.desc u).mapEntry = false := by
        by_contra hentry
        have many := P.map_repeated s vf hvf u (CppType.eq_message hu) (by simpa using hentry)
        simp [valueSingle] at many
      have keyedU : KeyedFrom P u := (keyed s hs).field hvf hu
      obtain ⟨kf', todo, x, more, -, -, -, -, lines⟩ :=
        keyFirst_outline F (keyedU u .here message) fields
      have head := lines (indent + 2)
      have shape : outlineValue F P indent (inlineText F kf.type k) vf (.message sub) =
          ⟨indent, inlineText F kf.type k ++ [':']⟩ ::
            outlineFields F P (indent + 2) (P.desc u).fields sub := by
        simp only [outlineValue, hu, head, headedBlock, headed]
      rw [shape, List.cons_append] at hb ⊢
      have inside : (outlineFields F P (indent + 2) (P.desc u).fields sub ++
          (outlineEntries F P indent f vs ++ rest)).length < bound := by simpa using hb
      have rest' : (outlineEntries F P indent f vs ++ rest).length < bound := by
        rw [List.length_append] at inside
        omega
      obtain ⟨j, rfl⟩ : ∃ j, bound = j + 1 := ⟨bound - 1, by omega⟩
      have back' := here.below _ rfl [.message sub] (by simp) (.message sub) (by simp)
      obtain ⟨h₁, hle₁, hsub⟩ := back' u sub rfl keyedU message fields [] (P.desc u).fields [] sub
        rfl rfl rfl (indent + 2) _ (j + 1) (hits + 1) after inside
      rw [head, List.cons_append] at hsub ⊢
      have value := readEntryValue_message F lang hvf valueSingle hu indent (by simp) [.scalar k] hsub
      have read := readEntry_eq entry many hk [] a b absent value
      obtain ⟨hits', hle, hread⟩ := ih typed.2 below _ later h₁ j rest'
      refine ⟨hits', by omega, ?_⟩
      rw [read_line (j + 1) (key []), readLine, read]
      simpa [bind, Except.bind] using hread

section Field

variable {t : Fin n} {f : Field n} {indent bound : Nat} {rest : List Ln} (a b : Slots) (hits : Nat)

/-- A map or a repeated field without elements. -/
theorem readField_empty (hf : (P.desc t).fields[a.length]? = some f) (many : f.repeated)
    {val : List Char} (flow : val = ['{', '}'] ∨ val = ['[', ']']) :
    read F P lang (bound + 1) (.mapping indent t)
      ⟨headed indent f.name (' ' :: val) [] ++ rest, a ++ f.initial :: b, hits⟩ =
        read F P lang bound (.mapping indent t) ⟨rest, a ++ [] :: b, hits⟩ := by
  have name := P.names_word t f (List.mem_of_getElem? hf)
  have unset : f.initial = [] := by simp [Field.initial, many]
  rw [unset, headed, List.singleton_append, read_line bound (holds_mapping (.bare name) _), readLine,
    applyEntry_flow hf flow]
  rfl

theorem readField_map (hf : (P.desc t).fields[a.length]? = some f) (hm : P.isMap f)
    (keyed : KeyedFrom P t) {v : Value} {vs : List Value} (shape : SlotShape P t f (v :: vs))
    (typed : TypedItems P f.type (v :: vs)) (back : ∀ w ∈ v :: vs, RereadBelow F P lang w)
    (ends : Ends (indent + 1) rest)
    (hb : (outlineEntries F P (indent + 2) f (v :: vs) ++ rest).length < bound) :
    ∃ hits', hits ≤ hits' ∧ read F P lang (bound + 1) (.mapping indent t)
      ⟨headed indent f.name [] (outlineEntries F P (indent + 2) f (v :: vs)) ++ rest,
        a ++ f.initial :: b, hits⟩ =
        read F P lang bound (.mapping indent t) ⟨rest, a ++ (v :: vs) :: b, hits'⟩ := by
  have hmem := List.mem_of_getElem? hf
  have name := P.names_word t f hmem
  have many := P.isMap_repeated hmem hm
  have unset : f.initial = [] := by simp [Field.initial, many]
  obtain ⟨hits', hle, hread⟩ := readEntries many hm (fun s hs => keyed.field hmem hs)
    (ends.mono (by omega : indent + 1 ≤ indent + 2)) typed back a b [] (by simpa using shape.keys hm)
    hb hits
  refine ⟨hits', hle, ?_⟩
  rw [TypedItems] at typed
  obtain ⟨key, inline, more, hkey, first⟩ := outlineEntry_cons F hm typed.1 (indent + 2)
  have lines : outlineEntries F P (indent + 2) f (v :: vs) ++ rest =
      ⟨indent + 2, key ++ ':' :: inline⟩ ::
        (more ++ outlineEntries F P (indent + 2) f vs ++ rest) := by
    rw [outlineEntries, first]
    simp
  rw [unset, headed, List.cons_append, read_line bound (holds_mapping (.bare name) _), readLine]
  rw [lines] at hread ⊢
  rw [applyEntry_block hf _ (by simp)]
  simp only [isSeqItem_inline hkey, Bool.false_eq_true, ↓reduceIte, hm, hread, List.nil_append]
  rfl

theorem readField_repeated (hf : (P.desc t).fields[a.length]? = some f) (plain : P.isMap f = false)
    (many : f.repeated) (keyed : KeyedFrom P t) {v : Value} {vs : List Value}
    (typed : TypedItems P f.type (v :: vs)) (back : ∀ w ∈ v :: vs, RereadBelow F P lang w)
    (ends : Ends (indent + 1) rest)
    (hb : (outlineItems F P (indent + 2) f (v :: vs) ++ rest).length < bound) :
    ∃ hits', hits ≤ hits' ∧ read F P lang (bound + 1) (.mapping indent t)
      ⟨headed indent f.name [] (outlineItems F P (indent + 2) f (v :: vs)) ++ rest,
        a ++ f.initial :: b, hits⟩ =
        read F P lang bound (.mapping indent t) ⟨rest, a ++ (v :: vs) :: b, hits'⟩ := by
  have hmem := List.mem_of_getElem? hf
  have name := P.names_word t f hmem
  have unset : f.initial = [] := by simp [Field.initial, many]
  obtain ⟨hits', hle, hread⟩ := readItems many plain (fun s hs => keyed.field hmem hs)
    (ends.mono (by omega : indent + 1 ≤ indent + 2)) typed (fun w hw => (back w hw).here) a b [] hb
    hits
  refine ⟨hits', hle, ?_⟩
  rw [TypedItems] at typed
  obtain ⟨text, more, first⟩ := outlineItem_cons F typed.1 (indent + 2)
  have lines : outlineItems F P (indent + 2) f (v :: vs) ++ rest =
      ⟨indent + 2, '-' :: ' ' :: text⟩ :: (more ++ outlineItems F P (indent + 2) f vs ++ rest) := by
    rw [outlineItems, first]
    simp
  rw [unset, headed, List.cons_append, read_line bound (holds_mapping (.bare name) _), readLine]
  rw [lines] at hread ⊢
  rw [applyEntry_block hf _ (by simp)]
  simp only [isSeqItem, ↓reduceIte, hread, List.nil_append]
  rfl

theorem readField_scalar (hf : (P.desc t).fields[a.length]? = some f) (single : f.repeated = false)
    {x : Scalar} (hx : CanHold f.type x) :
    read F P lang (bound + 1) (.mapping indent t)
      ⟨headed indent f.name (' ' :: inlineText F f.type x) [] ++ rest, a ++ f.initial :: b, hits⟩ =
        read F P lang bound (.mapping indent t) ⟨rest, a ++ [.scalar x] :: b, hits + 1⟩ := by
  have name := P.names_word t f (List.mem_of_getElem? hf)
  rw [headed, List.singleton_append, read_line bound (holds_mapping (.bare name) _), readLine,
    applyEntry_scalar hf single hx, set_mid]
  rfl

theorem readField_message (hf : (P.desc t).fields[a.length]? = some f) (single : f.repeated = false)
    (keyed : KeyedFrom P t) {slots : Slots} (typed : TypedValue P f.type (.message slots))
    (back : ReadsBack F P lang (.message slots)) (ends : Ends (indent + 1) rest)
    (hb : (outlineValue F P indent f.name f (.message slots) ++ rest).length < bound + 1) :
    ∃ hits', hits ≤ hits' ∧ read F P lang (bound + 1) (.mapping indent t)
      ⟨outlineValue F P indent f.name f (.message slots) ++ rest, a ++ f.initial :: b, hits⟩ =
        read F P lang bound (.mapping indent t) ⟨rest, a ++ [.message slots] :: b, hits'⟩ := by
  have hmem := List.mem_of_getElem? hf
  have name := P.names_word t f hmem
  obtain ⟨s, hs, fields⟩ := typed_message typed
  have presence : f.presence := P.presence_message t f hmem single (by simp [CppType.isMessage, hs])
  have unset : f.initial = [] := by simp [Field.initial, presence]
  have plain : P.isMap f = false := by
    by_contra hm
    have many := P.isMap_repeated hmem (by simpa using hm)
    simp [single] at many
  have message := notEntry_of_notMap plain hs
  have keyedS : KeyedFrom P s := keyed.field hmem hs
  obtain ⟨kf, todo, x, more, hfields, -, hx, -, lines⟩ :=
    keyFirst_outline F (keyedS s .here message) fields
  have key : isName kf.name := P.names_word s kf (by simp [hfields])
  have shape : outlineValue F P indent f.name f (.message slots) ++ rest =
      ⟨indent, f.name ++ [':']⟩ ::
        (outlineFields F P (indent + 2) (P.desc s).fields slots ++ rest) := by
    simp only [outlineValue, hs, lines (indent + 2), headedBlock, headed, List.cons_append]
  rw [shape] at hb ⊢
  obtain ⟨hits', hle, hread⟩ := back s slots rfl keyedS message fields [] (P.desc s).fields [] slots
    rfl rfl rfl (indent + 2) rest bound hits (ends.mono (by omega)) (by simpa using hb)
  refine ⟨hits', hle, ?_⟩
  have target : P.mutableMessage f a.length (a ++ f.initial :: b) = some (P.new s) := by
    simp [Pool.mutableMessage, hs, single, unset]
  have one : f.singleMessage? = some s := by simp [Field.singleMessage?, single, hs]
  rw [read_line bound (holds_mapping (.bare name) _), readLine]
  rw [lines (indent + 2), List.cons_append] at hread ⊢
  rw [applyEntry_block hf _ (by simp)]
  simp only [isSeqItem_inline (.bare key), Bool.false_eq_true, ↓reduceIte, plain, one, readSub,
    target, orAbort, bind, Except.bind]
  rw [show (P.new s : Slots) = [] ++ (P.desc s).fields.map Field.initial from rfl, hread]
  simp only [set_mid]

/-- A field without lines is as in a new message. -/
theorem outlineField_eq_nil {slot : List Value} (shape : SlotShape P t f slot)
    (typed : TypedItems P f.type slot) (h : outlineField F P indent f slot = []) :
    slot = f.initial := by
  cases slot with
  | nil =>
    rw [outlineField] at h
    split at h
    · simp [headed] at h
    · split at h
      · simp [headed] at h
      next hr => simp [Field.initial, (shape.unset (by simpa using hr) rfl).1]
  | cons v vs =>
    rw [TypedItems] at typed
    rw [outlineField] at h
    split at h
    · simp [headed] at h
    · split at h
      · simp [headed] at h
      · obtain ⟨inline, more, hv⟩ := outlineValue_cons F typed.1 indent f.name
        simp [hv] at h

/-- A field that has lines is read from them. -/
theorem readField (hf : (P.desc t).fields[a.length]? = some f) (keyed : KeyedFrom P t)
    {slot : List Value} (shape : SlotShape P t f slot) (typed : TypedItems P f.type slot)
    (back : ∀ v ∈ slot, RereadBelow F P lang v) (ends : Ends (indent + 1) rest)
    (hb : (outlineField F P indent f slot ++ rest).length < bound + 1)
    (lines : outlineField F P indent f slot ≠ []) :
    ∃ hits', hits ≤ hits' ∧ read F P lang (bound + 1) (.mapping indent t)
      ⟨outlineField F P indent f slot ++ rest, a ++ f.initial :: b, hits⟩ =
        read F P lang bound (.mapping indent t) ⟨rest, a ++ slot :: b, hits'⟩ := by
  have hmem := List.mem_of_getElem? hf
  cases slot with
  | nil =>
    rw [outlineField] at lines ⊢
    by_cases hm : P.isMap f
    · rw [if_pos hm]
      exact ⟨hits, le_rfl, readField_empty a b hits hf (P.isMap_repeated hmem hm) (.inl rfl)⟩
    · rw [if_neg hm] at lines ⊢
      by_cases hr : f.repeated
      · rw [if_pos hr]
        exact ⟨hits, le_rfl, readField_empty a b hits hf hr (.inr rfl)⟩
      · have presence := (shape.unset (by simpa using hr) rfl).1
        simp [hr, presence] at lines
  | cons v vs =>
    rw [outlineField] at hb ⊢
    by_cases hm : P.isMap f
    · rw [if_pos hm] at hb ⊢
      exact readField_map a b hits hf hm keyed shape typed back ends
        (by simpa [headed, outlineEntries] using hb)
    · rw [if_neg hm] at hb ⊢
      have plain : P.isMap f = false := by simpa using hm
      by_cases hr : f.repeated
      · rw [if_pos hr] at hb ⊢
        exact readField_repeated a b hits hf plain hr keyed typed back ends
          (by simpa [headed, outlineItems] using hb)
      · rw [if_neg hr] at hb ⊢
        have single : f.repeated = false := by simpa using hr
        have alone : vs = [] := by
          have short := shape.single single
          simpa using short
        subst alone
        rw [TypedItems] at typed
        cases v with
        | scalar x =>
          rw [TypedValue] at typed
          exact ⟨hits + 1, by omega, readField_scalar a b hits hf single typed.1⟩
        | message slots =>
          exact readField_message a b hits hf single keyed typed.1
            (back _ List.mem_cons_self).here ends hb

end Field

theorem typedFields_append {t : Fin n} {doneF todoF : List (Field n)} {doneS todoS : Slots}
    (hlen : doneF.length = doneS.length) (h : TypedFields P t (doneF ++ todoF) (doneS ++ todoS)) :
    TypedFields P t todoF todoS := by
  induction doneF generalizing doneS with
  | nil =>
    cases doneS with
    | nil => exact h
    | cons _ _ => simp at hlen
  | cons f doneF ih =>
    cases doneS with
    | nil => simp at hlen
    | cons slot doneS =>
      rw [List.cons_append, List.cons_append, TypedFields] at h
      exact ih (by simpa using hlen) h.2.2

/-- The fields of a message, one after the other. -/
theorem fieldsRead {t : Fin n} (keyed : KeyedFrom P t) {slots : Slots}
    (typed : TypedFields P t (P.desc t).fields slots)
    (back : ∀ slot ∈ slots, ∀ v ∈ slot, RereadBelow F P lang v) : FieldsRead F P lang t slots := by
  intro doneF todoF doneS todoS hfields hslots hlen indent rest bound hits ends hb
  have todo : TypedFields P t todoF todoS := by
    rw [hfields, hslots] at typed
    exact typedFields_append hlen typed
  have backT : ∀ slot ∈ todoS, ∀ v ∈ slot, RereadBelow F P lang v :=
    fun slot hs => back slot (by simp [hslots, hs])
  clear back typed
  -- over the fields still to be read: each is read into its place behind those that are done
  induction todoS generalizing doneF todoF doneS bound hits with
  | nil =>
    cases todoF with
    | cons _ _ => simp [TypedFields] at todo
    | nil =>
      obtain ⟨bound, rfl⟩ : ∃ k, bound = k + 1 := ⟨bound - 1, by omega⟩
      refine ⟨hits, le_rfl, ?_⟩
      simpa [outlineFields, hslots] using read_ends bound (.mapping indent t) ends doneS hits
  | cons slot todoS ih =>
    cases todoF with
    | nil => simp [TypedFields] at todo
    | cons f todoF =>
      rw [TypedFields] at todo
      obtain ⟨shape, items, todo⟩ := todo
      obtain ⟨here, below⟩ := List.forall_mem_cons.mp backT
      have hf : (P.desc t).fields[doneS.length]? = some f := by simp [hfields, ← hlen]
      have next := fun bound hits => ih (doneF ++ [f]) todoF (doneS ++ [slot]) (by simp [hfields])
        (by simp [hslots]) (by simp [hlen]) bound hits
      rw [outlineFields, List.append_assoc] at hb ⊢
      by_cases hnone : outlineField F P indent f slot = []
      · have initial := outlineField_eq_nil shape items hnone
        rw [hnone, List.nil_append] at hb ⊢
        obtain ⟨hits', hle, hread⟩ := next bound hits hb todo below
        refine ⟨hits', hle, ?_⟩
        simpa [← initial] using hread
      · have after : Ends (indent + 1) (outlineFields F P indent todoF todoS ++ rest) :=
          ends_append (outlineFields_head indent todoF todoS) (by omega) (ends.mono (by omega))
        obtain ⟨bound, rfl⟩ : ∃ k, bound = k + 1 := ⟨bound - 1, by omega⟩
        obtain ⟨h₁, hle₁, hfield⟩ := readField doneS (todoF.map Field.initial) hits hf keyed shape items
          here after hb hnone
        have shorter : (outlineFields F P indent todoF todoS ++ rest).length < bound := by
          have some := List.length_pos_iff.mpr hnone
          rw [List.length_append] at hb
          omega
        obtain ⟨hits', hle, hread⟩ := next bound h₁ shorter todo below
        refine ⟨hits', hle₁.trans hle, ?_⟩
        rw [List.map_cons, hfield]
        simpa using hread

/-- Every value is read back, and so is all that it holds. -/
theorem rereadBelow (v : Value) : RereadBelow F P lang v := by
  induction v using Value.induct with
  | scalar x =>
    constructor
    · intro s slots h
      simp at h
    · intro slots h
      simp at h
  | message slots ih =>
    constructor
    · intro s slots' h keyed _ typed
      obtain rfl := Value.message.inj h
      exact fieldsRead keyed typed ih
    · intro slots' h slot hs w hw
      obtain rfl := Value.message.inj h
      exact (ih slot hs w hw).here

end Messages

theorem toYaml_eq_lineText (F : FloatText) {P : Pool n} {t : Fin n} {m : Slots} (typed : Typed P t m)
    (some : outlineFields F P 0 (P.desc t).fields m ≠ []) :
    toYaml F P t m = lineText (outlineFields F P 0 (P.desc t).fields m) := by
  have text := writeFields_eq (F := F) (fun _ _ v _ => prints v) 0 typed
  rw [toYaml, ← text]
  exact if_neg (lineText_ne_nil some)

/-- What either runtime writes of a message, either runtime reads back into an empty one. -/
theorem fromYaml_toYaml (F : FloatText) (P : Pool n) (lang : Lang) (t : Fin n)
    (message : (P.desc t).mapEntry = false) (keyed : KeyedFrom P t) (m : Slots)
    (typed : Typed P t m) : fromYaml F P lang t (toYaml F P t m) (P.new t) = .ok (true, m) := by
  obtain ⟨kf, fields, x, more, hfields, hm, hx, single, lines⟩ :=
    keyFirst_outline F (keyed t .here message) typed
  have outline := lines 0
  have ok : ∀ l ∈ outlineFields F P 0 (P.desc t).fields m, LineOk l :=
    outlineFields_ok (P.names_word t) (fun _ _ v _ => linesOk v) 0 typed
  have text : tokenize (toYaml F P t m) = outlineFields F P 0 (P.desc t).fields m := by
    rw [toYaml_eq_lineText F typed (by simp [outline]), tokenize_lineText ok]
  have hf : (P.desc t).fields[0]? = some kf := by simp [hfields]
  have first : ∀ bound, read F P lang (bound + 1) (.mapping 0 t)
      ⟨outlineFields F P 0 (P.desc t).fields m, P.new t, 0⟩ =
        read F P lang bound (.mapping 0 t)
          ⟨outlineFields F P 0 fields more ++ [], [[.scalar x]] ++ fields.map Field.initial, 1⟩ := by
    intro bound
    have start : P.new t = [] ++ kf.initial :: fields.map Field.initial := by
      simp [Pool.new, hfields]
    rw [outline, start, List.append_nil]
    exact readField_scalar [] (fields.map Field.initial) 0 hf single hx
  have back : ∀ slot ∈ m, ∀ v ∈ slot, RereadBelow F P lang v := fun _ _ v _ => rereadBelow v
  have others := fieldsRead keyed typed back [kf] fields [[.scalar x]] more hfields hm rfl 0 []
  obtain ⟨hits, hle, hread⟩ := others (outlineFields F P 0 (P.desc t).fields m).length 1 (by simp [Ends])
    (by simp [outline])
  have notEmpty : outlineFields F P 0 (P.desc t).fields m ≠ [⟨0, ['{', '}']⟩] := by
    intro he
    have colon : ':' ∈ kf.name ++ ':' :: ' ' :: inlineText F kf.type x := by simp
    rw [outline] at he
    rw [(Ln.mk.inj (List.cons.inj he).1).2] at colon
    exact absurd colon (by decide)
  have found : hits ≠ 0 := by omega
  rw [fromYaml]
  simp only [text]
  rw [if_neg notEmpty, first, hread]
  simp [Except.map, found]

/-- Boxes with notes and boxes in them. -/
def boxPool : Pool 2 where
  desc t :=
    if t = 0 then
      { name := ['b', 'o', 'x']
        fields := [{ name := ['H', 'A', 'R', 'P', 'I', 'A', '_', 'I', 'D'], type := .int64 },
          { name := ['n', 'o', 't', 'e', 's'], type := .message 1, repeated := true },
          { name := ['i', 'n'], type := .message 0, repeated := true },
          { name := ['o', 'n'], type := .message 0, presence := true }] }
    else
      { name := ['E']
        fields := [{ name := ['k', 'e', 'y'], type := .int32 },
          { name := ['v', 'a', 'l', 'u', 'e'], type := .string }]
        mapEntry := true }
  names_word := by decide
  names_nodup := by decide
  presence_repeated := by decide
  presence_message := by decide
  entry := by decide
  map_repeated := by decide

def box (id : Int) (notes inside on : List Value) : Slots :=
  [[.scalar (.int id)], notes, inside, on]

def note (k : Int) (text : List Char) : Value := .message [[.scalar (.int k)], [.scalar (.text text)]]

def sampleBox : Slots :=
  box 7 [note (-5) ['-', ' ', '"', '\r', ':'], note 0 ['{', '}']]
    [.message (box (-1) [] [] []), .message (box 2 [note 1 []] [] [])] [.message (box 3 [] [] [])]

theorem keyedFrom_boxPool : KeyedFrom boxPool 0 := by
  intro s _ hs
  match s with
  | 0 => exact ⟨rfl, rfl, rfl, rfl⟩
  | 1 => exact absurd hs (by decide)

theorem typedItems_notes {notes : List (Int × List Char)}
    (h : ∀ e ∈ notes, -2 ^ 31 ≤ e.1 ∧ e.1 < 2 ^ 31) :
    TypedItems boxPool (.message 1) (notes.map fun e => note e.1 e.2) := by
  induction notes with
  | nil => simp [TypedItems]
  | cons e notes ih =>
    obtain ⟨here, below⟩ := List.forall_mem_cons.mp h
    have shape : ∀ f v, SlotShape boxPool 1 f [v] :=
      fun f v => ⟨fun _ => le_rfl, by simp, fun _ => List.nodup_singleton _⟩
    simp only [List.map_cons, TypedItems, note, TypedValue, CppType.messageType?]
    refine ⟨⟨shape _ _, ⟨here, trivial⟩, shape _ _, ⟨trivial, trivial⟩, trivial⟩, ih below⟩

theorem typed_box {id : Int} {notes : List (Int × List Char)} {inside on : List Value}
    (hid : -2 ^ 63 ≤ id ∧ id < 2 ^ 63) (keys : (notes.map Prod.fst).Nodup)
    (hnotes : ∀ e ∈ notes, -2 ^ 31 ≤ e.1 ∧ e.1 < 2 ^ 31)
    (hin : TypedItems boxPool (.message 0) inside) (hon : TypedItems boxPool (.message 0) on)
    (short : on.length ≤ 1) :
    Typed boxPool 0 (box id (notes.map fun e => note e.1 e.2) inside on) := by
  have distinct : ((notes.map fun e => note e.1 e.2).map entryKey).Nodup := by
    have same : (notes.map fun e => note e.1 e.2).map entryKey =
        (notes.map Prod.fst).map fun k => some (Scalar.int k) := by
      simp [note, entryKey, Function.comp_def]
    rw [same]
    exact keys.map (fun _ _ h => by simpa using h)
  change TypedFields boxPool 0 [_, _, _, _] [_, _, _, _]
  simp only [TypedFields, TypedItems, TypedValue]
  exact ⟨⟨by simp, by simp, by simp [Pool.isMap]⟩, ⟨hid, trivial⟩,
    ⟨by simp, by simp, fun _ => distinct⟩, typedItems_notes hnotes,
    ⟨by simp, by simp, fun h => absurd h (by decide)⟩, hin,
    ⟨fun _ => short, fun _ _ => ⟨rfl, rfl⟩, fun h => absurd h (by decide)⟩, hon, trivial⟩

theorem typed_sampleBox : Typed boxPool 0 sampleBox := by
  have empty : TypedItems boxPool (.message 0) [] := by simp [TypedItems]
  have first : Typed boxPool 0 (box (-1) [] [] []) :=
    @typed_box (-1) [] [] [] (by decide) (by decide) (by simp) empty empty (by simp)
  have second : Typed boxPool 0 (box 2 [note 1 []] [] []) :=
    @typed_box 2 [(1, [])] [] [] (by decide) (by decide) (by simp) empty empty (by simp)
  have third : Typed boxPool 0 (box 3 [] [] []) :=
    @typed_box 3 [] [] [] (by decide) (by decide) (by simp) empty empty (by simp)
  refine @typed_box 7 [(-5, ['-', ' ', '"', '\r', ':']), (0, ['{', '}'])] _ _ (by decide) (by decide)
    (by simp) ?_ ?_ (by simp)
  · simp only [TypedItems, TypedValue, CppType.messageType?]
    exact ⟨first, second, trivial⟩
  · simp only [TypedItems, TypedValue, CppType.messageType?]
    exact ⟨third, trivial⟩

theorem fromYaml_toYaml_sampleBox :
    fromYaml zeroFloats boxPool .cpp 0 (toYaml zeroFloats boxPool 0 sampleBox) (boxPool.new 0) =
        .ok (true, sampleBox) ∧
      fromYaml zeroFloats boxPool .python 0 (toYaml zeroFloats boxPool 0 sampleBox)
        (boxPool.new 0) = .ok (true, sampleBox) :=
  ⟨fromYaml_toYaml zeroFloats boxPool .cpp 0 (by decide) keyedFrom_boxPool sampleBox typed_sampleBox,
    fromYaml_toYaml zeroFloats boxPool .python 0 (by decide) keyedFrom_boxPool sampleBox
      typed_sampleBox⟩

end Harpia
