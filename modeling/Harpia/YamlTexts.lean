import Harpia.Lib.Words
import Harpia.RedactedXml
import Harpia.YamlContent

namespace Harpia

open Text Reflection

variable {n : Nat}

section Characters

/-- The lines of a document have readable characters only. -/
def LinesReadable (lines : List Ln) : Prop := ∀ l ∈ lines, readableText l.s

theorem readableText_iff {s : List Char} : readableText s ↔ ∀ c ∈ s, readableChar c :=
  List.all_eq_true

theorem readableText_of_subset {a b : List Char} (h : readableText b) (sub : a ⊆ b) :
    readableText a :=
  readableText_iff.mpr fun c hc => readableText_iff.mp h c (sub hc)

theorem dropReturn_sublist (cs : List Char) : List.Sublist (dropReturn cs) cs := by
  unfold dropReturn
  split
  · exact List.dropLast_sublist cs
  · exact List.Sublist.refl cs

theorem dropBlanksRight_sublist (cs : List Char) : List.Sublist (dropBlanksRight cs) cs := by
  rw [dropBlanksRight, ← List.reverse_sublist, List.reverse_reverse]
  exact List.dropWhile_sublist _

theorem lineOf_readable {line : List Char} {l : Ln} (h : readableText line)
    (hl : lineOf line = some l) : readableText l.s := by
  simp only [lineOf] at hl
  split at hl
  · exact absurd hl (by simp)
  · rw [← Option.some.inj hl]
    refine readableText_of_subset h ?_
    exact ((dropBlanksRight_sublist _).trans
      ((List.dropWhile_sublist _).trans (dropReturn_sublist line))).subset

theorem tokenize_readable {text : List Char} (h : readableText text) :
    LinesReadable (tokenize text) := by
  intro l hl
  obtain ⟨line, hline, hl⟩ := List.mem_filterMap.mp hl
  exact lineOf_readable (readableText_of_subset h (splitOnP_mem hline).2) hl

theorem unescape_readable {s : List Char} (h : readableText s) : readableText (unescape s) := by
  rw [readableText_iff] at h ⊢
  induction s using unescape.induct with
  | case1 c cs ih =>
    obtain ⟨-, hc, rest⟩ := List.forall_mem_cons.mp h |>.imp_right List.forall_mem_cons.mp
    rw [unescape]
    refine List.forall_mem_cons.mpr ⟨?_, ih rest⟩
    split
    · decide
    · split
      · decide
      · exact hc
  | case2 c cs other ih =>
    obtain ⟨hc, rest⟩ := List.forall_mem_cons.mp h
    rw [unescape]
    · exact List.forall_mem_cons.mpr ⟨hc, ih rest⟩
    · exact other
  | case3 => exact h

theorem unquote_readable {s : List Char} (h : readableText s) : readableText (unquote s) := by
  unfold unquote
  split
  · refine unescape_readable (readableText_of_subset h ?_)
    exact ((List.dropLast_sublist _).trans (List.drop_sublist 1 s)).subset
  · exact h

theorem splitKv_readable {s : List Char} (h : readableText s) :
    readableText (splitKv s).1 ∧ readableText (splitKv s).2 :=
  ⟨readableText_of_subset h (splitKv_sublist s).1.subset,
    readableText_of_subset h (splitKv_sublist s).2.subset⟩

theorem itemText_readable {s : List Char} (h : readableText s) : readableText (itemText s) :=
  readableText_of_subset h ((List.dropWhile_sublist _).trans (List.drop_sublist 1 s)).subset

theorem skipBlock_readable {lines : List Ln} (h : LinesReadable lines) (indent : Nat) :
    LinesReadable (skipBlock indent lines) :=
  fun l hl => h l ((List.dropWhile_sublist _).subset hl)

end Characters

section Writing

variable (F : FloatText) (P : Pool n) (redact : Redacts)

@[simp] theorem readableText_nil : readableText [] = true := rfl

@[simp] theorem readableText_cons (c : Char) (s : List Char) :
    readableText (c :: s) = (readableChar c && readableText s) := rfl

@[simp] theorem readableText_append (a b : List Char) :
    readableText (a ++ b) = (readableText a && readableText b) := List.all_append

@[simp] theorem readableText_pad (k : Nat) : readableText (pad k) := by
  refine readableText_iff.mpr fun c hc => ?_
  rw [List.eq_of_mem_replicate hc]
  decide

theorem jsonEscape_readable (s : List Char) : readableText (jsonEscape s) := by
  have digits : ∀ k, readableChar (hexLower k) := by
    have all : ∀ k < 16, readableChar (Nat.digitChar k) := by decide
    exact fun k => all (k % 16) (Nat.mod_lt k (by decide))
  have each : ∀ c, readableText (jsonEscapeChar c) := by
    intro c
    have backslash : readableChar '\\' ∧ readableChar 'u' ∧ readableChar '0' := by decide
    unfold jsonEscapeChar
    split_ifs with _ _ _ _ _ narrow
    · decide
    · decide
    · decide
    · decide
    · decide
    · simp [digits, backslash]
    · simp [readableChar, Nat.not_lt.mp narrow]
  induction s with
  | nil => rfl
  | cons c s ih =>
    have split : jsonEscape (c :: s) = jsonEscapeChar c ++ jsonEscape s := List.flatMap_cons
    rw [split, readableText_append, each, ih]
    rfl

theorem quoted_readable {s : List Char} (h : readableText s) : readableText (quoted s) := by
  simp [quoted, h, show readableChar '"' = true by decide]

theorem scalarValue_readable {ty : CppType n} {x : Scalar} (h : CanHold ty x) :
    readableText (scalarValue F .yaml ty x) := by
  have plain : ∀ s : List Char, (∀ c ∈ s, plainChar c) → readableText s := by
    intro s hs
    refine readableText_iff.mpr fun c hc => ?_
    have kind := hs c hc
    rw [plainChar, Bool.or_eq_true, decide_eq_true_eq] at kind
    rcases kind with word | rfl
    · have single : isName [c] := by simp [isName, word]
      exact readableText_iff.mp (readableText_name single) c List.mem_cons_self
    · decide
  rcases scalarText_plain (F := F) h with ⟨s, rfl⟩ | ⟨-, word⟩
  · exact quoted_readable (jsonEscape_readable s)
  · have text := plain _ word
    cases ty <;> cases x <;> simp only [CanHold] at h
    case enum.int e k => exact quoted_readable text
    case string.text s => exact quoted_readable (jsonEscape_readable s)
    all_goals exact text

/-- The redacting walk writes a value with readable characters only. -/
structure WalksReadable (v : Value) : Prop where
  value : ∀ ty indent, TypedValue P ty v → readableText (walkValue F P redact .yaml indent ty v)
  entry : ∀ f indent first, P.isMap f → TypedValue P f.type v →
    readableText (walkEntry F P redact .yaml indent first f v)

variable {F P redact}

theorem marks_readable : readableChar ':' ∧ readableChar ' ' ∧ readableChar '\n' ∧ readableChar '-' ∧
    readableChar '{' ∧ readableChar '}' ∧ readableChar '[' ∧ readableChar ']' := by decide

theorem yamlBlock_readable (ty : CppType n) {text : List Char} (h : readableText text) :
    readableText (yamlBlock ty text) := by
  unfold yamlBlock
  split
  · split
    · decide
    · simp [h, marks_readable]
  · simp [h, marks_readable]

theorem listItem_readable (indent : Nat) (first : Bool) (f : Field n) {text : List Char}
    (h : readableText text) : readableText (listItem .yaml indent first f text) := by
  have rest : readableText (text.drop (indent + 4)) :=
    readableText_of_subset h (List.drop_sublist _ _).subset
  simp only [listItem]
  split
  · split
    · simp [marks_readable]
    · simp [rest, marks_readable]
  · simp [h, marks_readable]

theorem walkItems_readable {f : Field n} {vs : List Value}
    (ih : ∀ v ∈ vs, WalksReadable F P redact v) (typed : TypedItems P f.type vs) (indent : Nat) :
    readableText (walkItems F P redact .yaml indent f vs) := by
  induction vs with
  | nil => rfl
  | cons v vs rest =>
    obtain ⟨here, below⟩ := List.forall_mem_cons.mp ih
    rw [TypedItems] at typed
    have item := listItem_readable indent false f (here.value f.type (indent + 4) typed.1)
    have items := rest below typed.2
    simp [walkItems, deeper, item, items]

theorem walkEntries_readable {f : Field n} (hm : P.isMap f) {vs : List Value}
    (ih : ∀ v ∈ vs, WalksReadable F P redact v) (typed : TypedItems P f.type vs) (indent : Nat) :
    readableText (walkEntries F P redact .yaml indent f vs) := by
  induction vs with
  | nil => rfl
  | cons v vs rest =>
    obtain ⟨here, below⟩ := List.forall_mem_cons.mp ih
    rw [TypedItems] at typed
    simp [walkEntries, here.entry f indent false hm typed.1, rest below typed.2]

theorem walkField_readable {t : Fin n} {f : Field n} (hf : f ∈ (P.desc t).fields) {slot : List Value}
    (ih : ∀ v ∈ slot, WalksReadable F P redact v) (shape : SlotShape P t f slot)
    (typed : TypedItems P f.type slot) (shown : visible f slot) (indent : Nat) :
    readableText (walkField F P redact .yaml t indent f slot) := by
  have name := readableText_name (P.names_word t f hf)
  have mark : readableText (placeholder .yaml) := by decide
  have redacted : readableText (redactedField .yaml indent f.name) := by
    simp [redactedField, name, mark, marks_readable]
  cases slot with
  | nil =>
    rw [walkField]
    split
    · exact redacted
    · split
      · simp [emptyField, name, marks_readable]
      · split
        · simp [emptyField, name, marks_readable]
        next many =>
          have presence := (shape.unset (by simpa using many) rfl).1
          simp [visible, many, presence] at shown
  | cons v vs =>
    obtain ⟨here, below⟩ := List.forall_mem_cons.mp ih
    rw [TypedItems] at typed
    rw [walkField]
    split
    · exact redacted
    · split
      next hm =>
        simp [openField, closeField, name, marks_readable, here.entry f indent true hm typed.1,
          walkEntries_readable hm below typed.2 indent]
      · split
        · have item := listItem_readable indent true f (here.value f.type (indent + 4) typed.1)
          simp [openField, closeField, deeper, name, marks_readable, item,
            walkItems_readable below typed.2 indent]
        · have block := yamlBlock_readable f.type (here.value f.type (indent + 2) typed.1)
          simp [singularField, deeper, name, marks_readable, block]

theorem walkFields_readable {t : Fin n} (fields : List (Field n))
    (hfields : ∀ f ∈ fields, f ∈ (P.desc t).fields) {slots : List (List Value)}
    (ih : ∀ slot ∈ slots, ∀ v ∈ slot, WalksReadable F P redact v) (typed : TypedFields P t fields slots)
    (indent : Nat) (first : Bool) :
    readableText (walkFields F P redact .yaml t indent first fields slots) := by
  induction slots generalizing fields first with
  | nil => simp [walkFields]
  | cons slot slots rest =>
    cases fields with
    | nil => simp [walkFields]
    | cons f fields =>
      obtain ⟨here, below⟩ := List.forall_mem_cons.mp ih
      obtain ⟨hf, hmore⟩ := List.forall_mem_cons.mp hfields
      rw [TypedFields] at typed
      rw [walkFields]
      split
      next shown =>
        have field := walkField_readable hf here typed.1 typed.2.1 shown indent
        simp [field, rest fields hmore below typed.2.2]
      next => exact rest fields hmore below typed.2.2 first

theorem walksReadable (v : Value) : WalksReadable F P redact v := by
  induction v using Value.induct with
  | scalar x =>
    constructor
    · intro ty indent typed
      rw [TypedValue] at typed
      rw [walkValue]
      exact scalarValue_readable F typed
    · intro f indent first hm typed
      obtain ⟨s, kf, vf, k, w, -, -, h, -⟩ := typed_entry hm typed
      exact absurd h (by simp)
  | message slots ih =>
    constructor
    · intro ty indent typed
      obtain ⟨s, hs, fields⟩ := typed_message typed
      simp only [walkValue, hs, braced, reduceCtorEq, ↓reduceIte]
      exact walkFields_readable _ (fun f hf => hf) ih fields indent true
    · intro f indent first hm typed
      obtain ⟨s, kf, vf, k, w, hs, hfields, he, hk, hw, -⟩ := typed_entry hm typed
      obtain rfl := Value.message.inj he
      have block := yamlBlock_readable vf.type
        ((ih [w] (by simp) w (by simp)).value vf.type (indent + 4) hw)
      simp [walkEntry, hs, hfields, mapItem, scalarOf, walkEntryValue, deeper, marks_readable, block,
        scalarValue_readable F hk]

theorem redactedToString_readable {t : Fin n} {m : Slots} (typed : Typed P t m) :
    readableText (redactedToString F P redact .yaml t m) := by
  have values : ∀ v, WalksReadable F P redact v := walksReadable
  have text := walkFields_readable _ (fun f hf => hf) (fun _ _ v _ => values v) typed 0 true
  simp only [redactedToString, braced, reduceCtorEq, ↓reduceIte]
  split
  · decide
  · exact text

end Writing

section Reading

variable {F : FloatText} {P : Pool n} {lang : Lang}

/-- Nothing unreadable is in the lines still unread or in the message. -/
structure StateReadable (st : ReadState) : Prop where
  lines : LinesReadable st.lines
  msg : textsAll readableText st.msg

/-- A reader that leaves nothing unreadable behind. -/
def KeepsReadable (r : Except Fault ReadState) : Prop := ∀ st, r = .ok st → StateReadable st

theorem keepsReadable_ok {st : ReadState} (h : StateReadable st) : KeepsReadable (.ok st) := by
  intro st' he
  rwa [← Except.ok.inj he]

theorem KeepsReadable.bind {r : Except Fault ReadState} {k : ReadState → Except Fault ReadState}
    (h : KeepsReadable r) (hk : ∀ st, StateReadable st → KeepsReadable (k st)) :
    KeepsReadable (r >>= k) := by
  cases r with
  | error e => exact fun st he => absurd he (by simp [Bind.bind, Except.bind])
  | ok st => exact hk st (h st rfl)

theorem parseScalar_readable {ty : CppType n} {s : List Char} {x : Scalar} (h : readableText s)
    (hx : parseScalar F lang ty s = some x) : scalarAll readableText x := by
  cases x with
  | text t =>
    rw [scalarAll, parseScalar_text hx]
    exact h
  | _ => rfl

theorem storeScalar_readable {f : Field n} {i : Nat} {raw : List Char} {repeated : Bool} {m : Slots}
    {r : Slots × Nat} (h : readableText raw) (hm : textsAll readableText m)
    (hr : storeScalar F lang f i raw repeated m = .ok r) : textsAll readableText r.1 := by
  unfold storeScalar at hr
  split at hr
  · exact absurd hr (by simp)
  · split at hr
    · rw [← Except.ok.inj hr]
      exact hm
    next x hx =>
      have value : itemsAll readableText [.scalar x] :=
        itemsAll_single (parseScalar_readable (unquote_readable h) hx)
      cases repeated with
      | true =>
        simp only [↓reduceIte, addValue] at hr
        split at hr
        · rw [← Except.ok.inj hr]
          exact textsAll_modify hm (fun slot hs => itemsAll_append hs value) i
        · exact absurd hr (by simp [orAbort, Except.map])
      | false =>
        simp only [Bool.false_eq_true, ↓reduceIte, setValue] at hr
        split at hr
        · rw [← Except.ok.inj hr]
          exact textsAll_set hm value i
        · exact absurd hr (by simp [orAbort, Except.map])

theorem setScalar_readable {f : Field n} {i : Nat} {raw : List Char} {repeated : Bool}
    {st : ReadState} (h : readableText raw) (hst : StateReadable st) :
    KeepsReadable (setScalar F lang f i raw repeated st) := by
  intro st' he
  unfold setScalar at he
  cases hr : storeScalar F lang f i raw repeated st.msg with
  | error e => simp [hr, Except.map] at he
  | ok r =>
    rw [hr] at he
    rw [← Except.ok.inj he]
    exact ⟨hst.lines, storeScalar_readable h hst.msg hr⟩

theorem new_readable (P : Pool n) (t : Fin n) : textsAll readableText (P.new t) :=
  textsAll_new (by decide) P t

/-- A reader of blocks that leaves nothing unreadable behind. -/
def ReadsReadable (rec : Read n) : Prop := ∀ b st, StateReadable st → KeepsReadable (rec b st)

theorem readSub_readable {rec : Read n} (hrec : ReadsReadable rec) (b : Block n) (f : Field n) (i : Nat)
    {st : ReadState} (h : StateReadable st) : KeepsReadable (readSub P rec b f i st) := by
  unfold readSub
  cases target : P.mutableMessage f i st.msg with
  | none => exact fun st' he => absurd he (by simp [orAbort, Bind.bind, Except.bind])
  | some sub =>
    have inner : StateReadable { st with msg := sub } :=
      ⟨h.lines, mutableMessage_texts (by decide) h.msg target⟩
    refine (hrec b _ inner).bind fun r hr => keepsReadable_ok ⟨hr.lines, ?_⟩
    refine textsAll_set h.msg (itemsAll_single ?_) i
    rw [valueAll]
    exact hr.msg

theorem applyEntry_readable {rec : Read n} (hrec : ReadsReadable rec) (indent : Nat) (t : Fin n)
    {s : List Char} (hs : readableText s) {st : ReadState} (h : StateReadable st) :
    KeepsReadable (applyEntry F P lang rec indent t s st) := by
  have skipped : ∀ k, StateReadable { st with lines := skipBlock k st.lines } :=
    fun k => ⟨skipBlock_readable h.lines k, h.msg⟩
  unfold applyEntry
  simp only
  split
  · refine keepsReadable_ok ?_
    split
    · exact skipped indent
    · exact h
  next i f hf =>
    split
    · split
      · exact keepsReadable_ok h
      · exact setScalar_readable (splitKv_readable hs).2 h
    · split
      · exact keepsReadable_ok h
      next child rest _ =>
        split
        · exact keepsReadable_ok h
        · split
          · exact hrec _ _ h
          · split
            · exact hrec _ _ h
            · split
              · exact readSub_readable hrec _ f i h
              · exact keepsReadable_ok (skipped child.indent)

theorem firstEntry_readable {rec : Read n} (hrec : ReadsReadable rec) (indent : Nat) (t : Fin n)
    {rest : List Char} (hs : readableText rest) {st : ReadState} (h : StateReadable st) :
    KeepsReadable (firstEntry F P lang rec indent t rest st) := by
  unfold firstEntry
  simp only
  split
  · exact keepsReadable_ok h
  · split
    · exact keepsReadable_ok h
    next i f hf =>
      split
      · split
        · exact keepsReadable_ok h
        · exact setScalar_readable (splitKv_readable hs).2 h
      · split
        · exact keepsReadable_ok h
        next child below _ =>
          split
          · exact keepsReadable_ok h
          · split
            · exact hrec _ _ h
            · split
              · exact readSub_readable hrec _ f i h
              · exact keepsReadable_ok ⟨skipBlock_readable h.lines _, h.msg⟩

theorem replaceLast_readable {m sub : Slots} (hm : textsAll readableText m)
    (hs : textsAll readableText sub) (i : Nat) :
    textsAll readableText (m.modify i fun vs => vs.dropLast ++ [.message sub]) := by
  refine textsAll_modify hm (fun slot hslot => itemsAll_append ?_ (itemsAll_single ?_)) i
  · rw [itemsAll_iff] at hslot ⊢
    exact fun v hv => hslot v ((List.dropLast_sublist slot).subset hv)
  · rw [valueAll]
    exact hs

theorem addValue_readable {f : Field n} {kind : Kind} {i : Nat} {v : Value} {m m' : Slots}
    (hm : textsAll readableText m) (hv : valueAll readableText v)
    (h : addValue kind f i v m = some m') : textsAll readableText m' := by
  unfold addValue at h
  split at h
  · rw [← Option.some.inj h]
    exact textsAll_modify hm (fun slot hs => itemsAll_append hs (itemsAll_single hv)) i
  · exact absurd h (by simp)

theorem newMessage_readable (P : Pool n) (t : Fin n) :
    valueAll readableText (.message (P.new t)) := by
  rw [valueAll]
  exact new_readable P t

theorem readItem_readable {rec : Read n} (hrec : ReadsReadable rec) (indent : Nat) (f : Field n)
    (i : Nat) {s : List Char} (hs : readableText s) {st : ReadState} (h : StateReadable st) :
    KeepsReadable (readItem F P lang rec indent f i s st) := by
  unfold readItem
  simp only
  split
  · exact keepsReadable_ok ⟨skipBlock_readable h.lines _, h.msg⟩
  · split
    · split
      · exact keepsReadable_ok h
      · exact setScalar_readable (itemText_readable hs) h
    next t _ =>
      cases added : addValue .message f i (.message (P.new t)) st.msg with
      | none => exact fun st' he => absurd he (by simp [orAbort, Bind.bind, Except.bind])
      | some msg =>
        have outer := addValue_readable h.msg (newMessage_readable P t) added
        have start : StateReadable { st with msg := P.new t, hits := st.hits + 1 } :=
          ⟨h.lines, new_readable P t⟩
        refine (firstEntry_readable hrec indent t (itemText_readable hs) start).bind
          fun item hitem => ?_
        refine (hrec _ item hitem).bind fun item hitem => ?_
        exact keepsReadable_ok ⟨hitem.lines, replaceLast_readable outer hitem.msg i⟩

theorem readEntryValue_readable {rec : Read n} (hrec : ReadsReadable rec) (indent : Nat) (vf : Field n)
    {val : List Char} (hs : readableText val) {st : ReadState} (h : StateReadable st) :
    KeepsReadable (readEntryValue F P lang rec indent vf val st) := by
  unfold readEntryValue
  split
  · split
    · exact keepsReadable_ok h
    · intro st' he
      cases hr : storeScalar F lang vf 1 val false st.msg with
      | error e => simp [hr, Except.map] at he
      | ok r =>
        rw [hr] at he
        rw [← Except.ok.inj he]
        exact ⟨h.lines, storeScalar_readable hs h.msg hr⟩
  · split
    · split
      · exact readSub_readable hrec _ vf 1 h
      · exact keepsReadable_ok h
    · exact keepsReadable_ok h

theorem clearValue_readable {vf : Field n} {e : Slots} (h : textsAll readableText e) :
    textsAll readableText (clearValue P lang vf e) := by
  unfold clearValue
  split
  · exact textsAll_set h (itemsAll_single (newMessage_readable P _)) 1
  · exact h

theorem readEntry_readable {rec : Read n} (hrec : ReadsReadable rec) (indent : Nat) (f : Field n)
    (i : Nat) {s : List Char} (hs : readableText s) {st : ReadState} (h : StateReadable st) :
    KeepsReadable (readEntry F P lang rec indent f i s st) := by
  obtain ⟨hkey, hval⟩ := splitKv_readable hs
  unfold readEntry
  split
  · exact fun st' he => absurd he (by simp)
  next t _ =>
    split
    next kf vf _ =>
      cases added : addValue .message f i (.message (P.new t)) st.msg with
      | none => exact fun st' he => absurd he (by simp [orAbort, Bind.bind, Except.bind])
      | some msg =>
        have outer := addValue_readable h.msg (newMessage_readable P t) added
        cases key : storeScalar F lang kf 0 (splitKv s).1 false (P.new t) with
        | error e => exact fun st' he => absurd he (by simp [orAbort, key, Bind.bind, Except.bind])
        | ok e =>
          have start : StateReadable
              { st with msg := clearValue P lang vf e.1, hits := st.hits + 1 } :=
            ⟨h.lines, clearValue_readable (storeScalar_readable hkey (new_readable P t) key)⟩
          simp only [orAbort, key]
          refine (readEntryValue_readable hrec indent vf hval start).bind fun r hr =>
            keepsReadable_ok ⟨hr.lines, ?_⟩
          cases lang with
          | cpp => exact replaceLast_readable outer hr.msg i
          | python =>
            refine textsAll_modify h.msg (fun es hes => putEntry_texts hes ?_) i
            rw [valueAll]
            exact hr.msg
    · exact keepsReadable_ok h

theorem readStep_readable {rec : Read n} (hrec : ReadsReadable rec) :
    ReadsReadable (readStep F P lang rec) := by
  intro b st h
  unfold readStep
  split
  · exact keepsReadable_ok h
  next l lines hlines =>
    have here : readableText l.s := h.lines l (by simp [hlines])
    have below : StateReadable { st with lines := lines } :=
      ⟨fun k hk => h.lines k (by simp [hlines, hk]), h.msg⟩
    split
    · refine KeepsReadable.bind ?_ fun st' hst => hrec b st' hst
      cases b with
      | mapping indent t => exact applyEntry_readable hrec indent t here below
      | sequence indent i f => exact readItem_readable hrec indent f i here below
      | map indent i f => exact readEntry_readable hrec indent f i here below
    · exact keepsReadable_ok h

theorem read_readable (bound : Nat) : ReadsReadable (read F P lang bound) := by
  induction bound with
  | zero => exact fun b st _ st' he => absurd he (by simp [read])
  | succ bound ih => exact readStep_readable ih

/-- What is read from a text has no character that the text has not, line feeds and tabs apart. -/
theorem fromYaml_readable {t : Fin n} {text : List Char} {m m' : Slots} {found : Bool}
    (ht : readableText text) (hm : textsAll readableText m)
    (h : fromYaml F P lang t text m = .ok (found, m')) : textsAll readableText m' := by
  unfold fromYaml at h
  simp only at h
  split at h
  · rw [← (Prod.mk.inj (Except.ok.inj h)).2]
    exact hm
  · have start : StateReadable ⟨tokenize text, m, 0⟩ := ⟨tokenize_readable ht, hm⟩
    cases hr : read F P lang ((tokenize text).length + 1) (.mapping 0 t) ⟨tokenize text, m, 0⟩ with
    | error e => simp [hr, Except.map] at h
    | ok st =>
      have result := read_readable _ _ _ start st hr
      rw [hr] at h
      rw [← (Prod.mk.inj (Except.ok.inj h)).2]
      exact result.msg

end Reading

end Harpia
