import Harpia.YamlContent
import Harpia.YamlRoundTrip

namespace Harpia

open Text Reflection

variable {n : Nat}

section Places

variable (P : Pool n)

/-- The text of a value that stands behind a key. -/
def inlineNumbers (ty : CppType n) (val : List Char) : List (CppType n × List Char) :=
  if val = [] ∨ isFlow val then [] else [(ty, unquote val)]

def entryNumbers (t : Fin n) (s : List Char) : List (CppType n × List Char) :=
  match (P.desc t).find? (unquote (splitKv s).1) with
  | none => []
  | some (_, f) => inlineNumbers f.type (splitKv s).2

def itemNumbers (f : Field n) (s : List Char) : List (CppType n × List Char) :=
  match f.type.messageType? with
  | none =>
    if itemText s = [] ∨ itemText s = ['[', ']'] then [] else [(f.type, unquote (itemText s))]
  | some t =>
    if itemText s = [] ∨ itemText s = ['{', '}'] then [] else entryNumbers P t (itemText s)

def pairNumbers (f : Field n) (s : List Char) : List (CppType n × List Char) :=
  match f.type.messageType?.map fun t => (P.desc t).fields with
  | some [kf, vf] => (kf.type, unquote (splitKv s).1) :: inlineNumbers vf.type (splitKv s).2
  | _ => []

/-- The texts that a block reads values from on one of its lines, with the types of these. -/
def Block.numbers (b : Block n) (s : List Char) : List (CppType n × List Char) :=
  match b with
  | .mapping _ t => entryNumbers P t s
  | .sequence _ _ f => itemNumbers P f s
  | .map _ _ f => pairNumbers P f s

def Block.Overlong (b : Block n) (s : List Char) : Prop :=
  ∃ x ∈ b.numbers P s, overlong x.1 x.2

/-- The next line has a number that Python's `int` refuses. -/
def ReadPlace.Overlong (p : ReadPlace n) : Prop :=
  ∃ b stack l lines, p = ⟨l :: lines, b :: stack⟩ ∧ b.holds l ∧ b.Overlong P l.s

/-- The innermost block is not a list below a map field. -/
def ReadPlace.NoMapItem (p : ReadPlace n) : Prop :=
  ∀ indent i f, p.stack.head? = some (.sequence indent i f) → P.isMap f = false

/-- A property of every place from one on. -/
def ReadPlace.Along (Q : ReadPlace n → Prop) (p : ReadPlace n) : Prop :=
  ∀ q, Relation.ReflTransGen (fun a b => a.next P = some b) p q → Q q

/-- No dash line of the document is the child of a map field. -/
def NoMapItems (t : Fin n) (text : List Char) : Prop :=
  (⟨tokenize text, [.mapping 0 t]⟩ : ReadPlace n).Along P (ReadPlace.NoMapItem P)

/-- Every number that the readers take from the document is short enough for Python's `int`. -/
def ShortNumbers (t : Fin n) (text : List Char) : Prop :=
  (⟨tokenize text, [.mapping 0 t]⟩ : ReadPlace n).Along P fun q => ¬ q.Overlong P

variable {P} {Q : ReadPlace n → Prop}

theorem ReadPlace.along_iff {p : ReadPlace n} :
    p.Along P Q ↔ Q p ∧ ∀ q, p.next P = some q → q.Along P Q := by
  constructor
  · intro h
    exact ⟨h p .refl, fun q hq r hr => h r (hr.head hq)⟩
  · rintro ⟨here, below⟩ q hq
    rcases hq.cases_head with rfl | ⟨r, hr, hrq⟩
    · exact here
    · exact below r hr q hrq

theorem ReadPlace.along_next {p q : ReadPlace n} (hq : p.next P = some q) :
    p.Along P Q ↔ Q p ∧ q.Along P Q := by
  rw [ReadPlace.along_iff]
  refine and_congr_right fun _ => ⟨fun h => h q hq, fun h r hr => ?_⟩
  rwa [← Option.some.inj (hq.symm.trans hr)]

end Places

section Twins

variable (P : Pool n)

/-- A place whose lines are plain, outside of any list below a map field. -/
def ReadPlace.Fair (p : ReadPlace n) : Prop :=
  (∀ l ∈ p.lines, PlainText l.s) ∧ p.NoMapItem P

abbrev ReadPlace.AllFair (p : ReadPlace n) : Prop := p.Along P (ReadPlace.Fair P)

abbrev ReadPlace.AllShort (p : ReadPlace n) : Prop := p.Along P fun q => ¬ q.Overlong P

/-- The states of the two readers, both in a message of one type. -/
structure SameState (t : Fin n) (a b : ReadState) : Prop where
  lines : a.lines = b.lines
  hits : a.hits = b.hits
  msg : SameContent P t a.msg b.msg

/-- What the Python reader does between two places where the C++ reader gets that far: the same,
unless a number on the way is too long for it. -/
def Twin (p : ReadPlace n) (stack : List (Block n)) (t : Fin n) :
    Except Fault ReadState → Except Fault ReadState → Prop
  | .error _, _ => True
  | .ok _, .error e => e = .value ∧ ¬ p.AllShort P
  | .ok a, .ok b =>
    SameState P t a b ∧ (⟨a.lines, stack⟩ : ReadPlace n).AllFair P ∧
      (p.AllShort P ↔ (⟨a.lines, stack⟩ : ReadPlace n).AllShort P)

variable {P} {t : Fin n}

theorem twin_here (stack : List (Block n)) {a b : ReadState} (h : SameState P t a b)
    (fair : (⟨a.lines, stack⟩ : ReadPlace n).AllFair P) :
    Twin P ⟨a.lines, stack⟩ stack t (.ok a) (.ok b) :=
  ⟨h, fair, Iff.rfl⟩

theorem Twin.next {p q : ReadPlace n} {stack : List (Block n)} {rc rp : Except Fault ReadState}
    (h : Twin P q stack t rc rp) (hq : p.next P = some q) (short : ¬ p.Overlong P) :
    Twin P p stack t rc rp := by
  have same : p.AllShort P ↔ q.AllShort P := by
    rw [ReadPlace.AllShort, ReadPlace.along_next hq]
    exact and_iff_right short
  cases rc with
  | error e => trivial
  | ok a =>
    cases rp with
    | error e => exact ⟨h.1, fun hp => h.2 (same.mp hp)⟩
    | ok b => exact ⟨h.1, h.2.1, same.trans h.2.2⟩

theorem Twin.bind {p : ReadPlace n} {inner outer : List (Block n)} {t' : Fin n}
    {rc rp : Except Fault ReadState} {kc kp : ReadState → Except Fault ReadState}
    (h : Twin P p inner t rc rp)
    (hk : ∀ a b, SameState P t a b → (⟨a.lines, inner⟩ : ReadPlace n).AllFair P →
      Twin P ⟨a.lines, inner⟩ outer t' (kc a) (kp b)) :
    Twin P p outer t' (rc >>= kc) (rp >>= kp) := by
  cases rc with
  | error e => trivial
  | ok a =>
    change Twin P p outer t' (kc a) (rp >>= kp)
    cases rp with
    | error e =>
      change Twin P p outer t' (kc a) (.error e)
      cases hc : kc a with
      | error e' => trivial
      | ok c => exact h
    | ok b =>
      have rest := hk a b h.1 h.2.1
      change Twin P p outer t' (kc a) (kp b)
      cases hc : kc a with
      | error e => trivial
      | ok c =>
        rw [hc] at rest
        cases hb : kp b with
        | error e =>
          rw [hb] at rest
          exact ⟨rest.1, fun hp => rest.2 (h.2.2.mp hp)⟩
        | ok d =>
          rw [hb] at rest
          exact ⟨rest.1, rest.2.1, h.2.2.trans rest.2.2⟩

/-- Where a number on the way is too long, it is enough that one of the readers stops. -/
theorem twin_of_overlong {p : ReadPlace n} {stack : List (Block n)}
    {rc rp : Except Fault ReadState} (long : p.Overlong P)
    (h : (∃ e, rc = .error e) ∨ rp = .error .value) : Twin P p stack t rc rp := by
  rcases h with ⟨e, rfl⟩ | rfl
  · trivial
  · cases rc with
    | error e => trivial
    | ok a => exact ⟨rfl, fun short => (ReadPlace.along_iff.mp short).1 long⟩

/-- The block belongs to a message of a type. -/
def Block.Of (t : Fin n) (b : Block n) : Prop :=
  match b with
  | .mapping _ s => s = t
  | .sequence _ i f => (P.desc t).fields[i]? = some f
  | .map _ i f => (P.desc t).fields[i]? = some f ∧ P.isMap f

variable {F : FloatText}

/-- Two readers that do the same in every block. -/
def Mirrors (P : Pool n) (rc rp : Read n) : Prop :=
  ∀ b t a c stack, Block.Of (P := P) t b → SameState P t a c →
    (⟨a.lines, b :: stack⟩ : ReadPlace n).AllFair P →
    Twin P ⟨a.lines, b :: stack⟩ stack t (rc b a) (rp b c)

variable {f : Field n} {i : Nat}

theorem storeScalar_eq (f : Field n) (i : Nat) {raw : List Char} (plain : PlainText raw)
    (short : overlong f.type (unquote raw) = false) (repeated : Bool) (m : Slots) :
    storeScalar F .python f i raw repeated m = storeScalar F .cpp f i raw repeated m := by
  simp only [storeScalar, short, Bool.false_eq_true, and_false, ↓reduceIte,
    parseScalar_eq F f.type (plainText_unquote plain)]

/-- A field that takes a value takes the same one on both sides. -/
theorem storeScalar_twin (hf : (P.desc t).fields[i]? = some f) {raw : List Char}
    (plain : PlainText raw) (short : overlong f.type (unquote raw) = false) (repeated : Bool)
    {m m' : Slots} (h : SameContent P t m m') :
    (∃ e, storeScalar F .cpp f i raw repeated m = .error e) ∨
      ∃ r r' k, storeScalar F .cpp f i raw repeated m = .ok (r, k) ∧
        storeScalar F .python f i raw repeated m' = .ok (r', k) ∧ SameContent P t r r' := by
  have number := parseScalar_eq F f.type (plainText_unquote plain)
  simp only [storeScalar, short, Bool.false_eq_true, and_false, ↓reduceIte, number]
  cases hx : parseScalar F .python f.type (unquote raw) with
  | none => exact .inr ⟨m, m', 0, rfl, rfl, h⟩
  | some x =>
    have scalar : f.type.messageType? = none := by
      cases hty : f.type with
      | message s => simp [hty, parseScalar] at hx
      | _ => rfl
    have notMap : P.isMap f = false := notMap_of_notMessage scalar
    cases repeated with
    | true =>
      by_cases many : f.repeated
      · refine .inr ⟨m.modify i (· ++ [.scalar x]), m'.modify i (· ++ [.scalar x]), 1, ?_, ?_, ?_⟩
        · simp [addValue, many, orAbort, Except.map]
        · simp [addValue, many, orAbort, Except.map]
        · exact h.append hf notMap rfl
      · exact .inl ⟨.accessor, by simp [addValue, many, orAbort, Except.map]⟩
    | false =>
      by_cases many : f.repeated
      · exact .inl ⟨.accessor, by simp [setValue, many, orAbort, Except.map]⟩
      · refine .inr ⟨m.set i [.scalar x], m'.set i [.scalar x], 1, ?_, ?_, h.set hf rfl⟩
        · simp [setValue, many, orAbort, Except.map]
        · simp [setValue, many, orAbort, Except.map]

theorem setScalar_twin (hf : (P.desc t).fields[i]? = some f) {raw : List Char}
    (plain : PlainText raw) (short : overlong f.type (unquote raw) = false) (repeated : Bool)
    {a b : ReadState} (h : SameState P t a b) {stack : List (Block n)}
    (fair : (⟨a.lines, stack⟩ : ReadPlace n).AllFair P) :
    Twin P ⟨a.lines, stack⟩ stack t (setScalar F .cpp f i raw repeated a)
      (setScalar F .python f i raw repeated b) := by
  rcases storeScalar_twin (F := F) hf plain short repeated h.msg with ⟨e, he⟩ | ⟨r, r', k, hc, hp, same⟩
  · rw [setScalar, he]
    trivial
  · rw [setScalar, setScalar, hc, hp]
    exact twin_here stack (a := { a with msg := r, hits := a.hits + k })
      ⟨h.lines, by simp [h.hits], same⟩ fair

theorem readSub_twin {rc rp : Read n} (hrec : Mirrors P rc rp)
    (hf : (P.desc t).fields[i]? = some f) {s : Fin n} (hs : f.type.messageType? = some s)
    (indent : Nat) {a b : ReadState} (h : SameState P t a b) (stack : List (Block n))
    (fair : (⟨a.lines, .mapping indent s :: stack⟩ : ReadPlace n).AllFair P) :
    Twin P ⟨a.lines, .mapping indent s :: stack⟩ stack t
      (readSub P rc (.mapping indent s) f i a) (readSub P rp (.mapping indent s) f i b) := by
  by_cases many : f.repeated
  · have none' : P.mutableMessage f i a.msg = none := by simp [Pool.mutableMessage, hs, many]
    rw [readSub, none']
    trivial
  · have single : f.repeated = false := by simpa using many
    have plain : P.isMap f = false := by
      by_contra hm
      exact many (P.isMap_repeated (List.mem_of_getElem? hf) (by simpa using hm))
    obtain ⟨sub, sub', hsub, hsub', same⟩ := h.msg.sub hf hs single plain
    rw [readSub, readSub, hsub, hsub']
    have inside := hrec (.mapping indent s) s { a with msg := sub } { b with msg := sub' } stack rfl
      ⟨h.lines, h.hits, same⟩ fair
    refine inside.bind fun x y hxy fair' => ?_
    refine twin_here stack (a := { x with msg := a.msg.set i [.message x.msg] })
      ⟨hxy.lines, hxy.hits, h.msg.set hf ?_⟩ fair'
    rw [contentSlot_single plain, contentSlot_single plain, contentValue_message hs plain,
      contentValue_message hs plain, hxy.msg]

/-- A line that a mapping holds, where its number is short enough. -/
theorem applyEntry_twin {rc rp : Read n} (hrec : Mirrors P rc rp) (indent : Nat) {s : List Char}
    (plain : PlainText s) (short : ∀ x ∈ entryNumbers P t s, overlong x.1 x.2 = false)
    {a b : ReadState} (h : SameState P t a b) {stack : List (Block n)}
    (fair : (⟨(entryOpens P indent t s a.lines).2,
      (entryOpens P indent t s a.lines).1 ++ stack⟩ : ReadPlace n).AllFair P) :
    Twin P ⟨(entryOpens P indent t s a.lines).2, (entryOpens P indent t s a.lines).1 ++ stack⟩ stack t
      (applyEntry F P .cpp rc indent t s a) (applyEntry F P .python rp indent t s b) := by
  unfold entryNumbers at short
  unfold entryOpens at fair ⊢
  unfold applyEntry
  simp only
  cases hfind : (P.desc t).find? (unquote (splitKv s).1) with
  | none =>
    by_cases hv : (splitKv s).2 = []
    · simp only [hfind, hv, ↓reduceIte, List.nil_append] at fair ⊢
      exact twin_here stack (a := { a with lines := skipBlock indent a.lines })
        ⟨by simp [h.lines], h.hits, h.msg⟩ fair
    · simp only [hfind, hv, ↓reduceIte, List.nil_append] at fair ⊢
      exact twin_here stack h fair
  | some found =>
    obtain ⟨i, f⟩ := found
    have hf := Descriptor.find?_mem hfind
    by_cases hv : (splitKv s).2 = []
    · simp only [hfind, hv, ne_eq, not_true_eq_false, ↓reduceIte, blockBelow] at fair ⊢
      rw [← h.lines]
      cases hlines : a.lines with
      | nil =>
        rw [hlines] at fair
        simpa [hlines] using twin_here stack h (by simpa [hlines] using fair)
      | cons child rest =>
        simp only [hlines] at fair ⊢
        by_cases hc : child.indent ≤ indent
        · simp only [hc, ↓reduceIte, List.nil_append] at fair ⊢
          simpa [hlines] using twin_here stack h (by simpa [hlines] using fair)
        · by_cases hq : isSeqItem child.s
          · simp only [hc, hq, ↓reduceIte] at fair ⊢
            simpa [hlines] using hrec (.sequence child.indent i f) t a b stack hf h
              (by simpa [hlines] using fair)
          · by_cases hm : P.isMap f
            · simp only [hc, hq, hm, ↓reduceIte, Bool.false_eq_true] at fair ⊢
              simpa [hlines] using hrec (.map child.indent i f) t a b stack ⟨hf, hm⟩ h
                (by simpa [hlines] using fair)
            · simp only [hc, hq, hm, ↓reduceIte, Bool.false_eq_true] at fair ⊢
              cases hs : f.singleMessage? with
              | none =>
                simp only [hs, List.nil_append] at fair ⊢
                exact twin_here stack (a := { a with lines := skipBlock child.indent (child :: rest) })
                  ⟨rfl, h.hits, h.msg⟩ fair
              | some v =>
                obtain ⟨hv, -⟩ := Field.singleMessage?_eq_some hs
                simp only [hs] at fair ⊢
                simpa [hlines] using readSub_twin hrec hf hv child.indent h stack
                  (by simpa [hlines] using fair)
    · simp only [hfind, hv, ne_eq, not_false_eq_true, ↓reduceIte, List.nil_append] at fair ⊢
      by_cases hflow : isFlow (splitKv s).2
      · simp only [hflow, ↓reduceIte]
        exact twin_here stack h fair
      · have number : overlong f.type (unquote (splitKv s).2) = false := by
          refine short (f.type, unquote (splitKv s).2) ?_
          simp [hfind, inlineNumbers, hv, hflow]
        simp only [hflow, Bool.false_eq_true, ↓reduceIte]
        exact setScalar_twin hf (plain.of_sublist (splitKv_sublist s).2) number f.repeated h fair

theorem firstEntry_twin {rc rp : Read n} (hrec : Mirrors P rc rp) (indent : Nat) {rest : List Char}
    (plain : PlainText rest)
    (short : rest ≠ [] → rest ≠ ['{', '}'] → ∀ x ∈ entryNumbers P t rest, overlong x.1 x.2 = false)
    {a b : ReadState} (h : SameState P t a b) {stack : List (Block n)}
    (fair : (⟨(firstOpens P indent t rest a.lines).2,
      (firstOpens P indent t rest a.lines).1 ++ stack⟩ : ReadPlace n).AllFair P) :
    Twin P ⟨(firstOpens P indent t rest a.lines).2, (firstOpens P indent t rest a.lines).1 ++ stack⟩
      stack t (firstEntry F P .cpp rc indent t rest a) (firstEntry F P .python rp indent t rest b) := by
  unfold firstOpens at fair ⊢
  unfold firstEntry
  by_cases hrest : rest = [] ∨ rest = ['{', '}']
  · simp only [hrest, ↓reduceIte, List.nil_append] at fair ⊢
    exact twin_here stack h fair
  simp only [hrest, ↓reduceIte] at fair ⊢
  rw [not_or] at hrest
  have numbers := short hrest.1 hrest.2
  unfold entryNumbers at numbers
  cases hfind : (P.desc t).find? (unquote (splitKv rest).1) with
  | none =>
    simp only [hfind, List.nil_append] at fair ⊢
    exact twin_here stack h fair
  | some found =>
    obtain ⟨i, f⟩ := found
    have hf := Descriptor.find?_mem hfind
    by_cases hv : (splitKv rest).2 = []
    · simp only [hfind, hv, ne_eq, not_true_eq_false, ↓reduceIte, blockBelowFirst] at fair ⊢
      rw [← h.lines]
      cases hlines : a.lines with
      | nil =>
        rw [hlines] at fair
        simpa [hlines] using twin_here stack h (by simpa [hlines] using fair)
      | cons child tail =>
        simp only [hlines] at fair ⊢
        by_cases hc : child.indent ≤ indent + 2
        · simp only [hc, ↓reduceIte, List.nil_append] at fair ⊢
          simpa [hlines] using twin_here stack h (by simpa [hlines] using fair)
        · by_cases hq : isSeqItem child.s
          · simp only [hc, hq, ↓reduceIte] at fair ⊢
            simpa [hlines] using hrec (.sequence child.indent i f) t a b stack hf h
              (by simpa [hlines] using fair)
          · simp only [hc, hq, ↓reduceIte, Bool.false_eq_true, reduceCtorEq] at fair ⊢
            cases hs : f.type.messageType? with
            | none =>
              have single : f.singleMessage? = none := by
                unfold Field.singleMessage?
                split
                · rfl
                · exact hs
              simp only [hs, single, List.nil_append] at fair ⊢
              exact twin_here stack (a := { a with lines := skipBlock (indent + 2) (child :: tail) })
                ⟨rfl, h.hits, h.msg⟩ fair
            | some v =>
              simp only [hs] at fair ⊢
              by_cases many : f.repeated
              · have none' : P.mutableMessage f i a.msg = none := by
                  simp [Pool.mutableMessage, hs, many]
                rw [readSub, none']
                trivial
              · have single : f.singleMessage? = some v := by simp [Field.singleMessage?, many, hs]
                simp only [single]
                simpa [hlines] using readSub_twin hrec hf hs child.indent h stack
                  (by simpa [hlines] using fair)
    · simp only [hfind, hv, ne_eq, not_false_eq_true, ↓reduceIte, List.nil_append] at fair ⊢
      by_cases hflow : isFlow (splitKv rest).2
      · simp only [hflow, ↓reduceIte]
        exact twin_here stack h fair
      · have number : overlong f.type (unquote (splitKv rest).2) = false := by
          refine numbers (f.type, unquote (splitKv rest).2) ?_
          simp [hfind, inlineNumbers, hv, hflow]
        simp only [hflow, Bool.false_eq_true, ↓reduceIte]
        exact setScalar_twin hf (plain.of_sublist (splitKv_sublist rest).2) number f.repeated h fair

/-- An element is added, and then read. -/
theorem modify_added (m : Slots) (i : Nat) (new v : Value) :
    (m.modify i (· ++ [new])).modify i (fun vs => vs.dropLast ++ [v]) = m.modify i (· ++ [v]) := by
  rw [List.modify_modify_eq]
  congr 1
  funext vs
  simp

theorem readItem_twin {rc rp : Read n} (hrec : Mirrors P rc rp) (indent : Nat)
    (hf : (P.desc t).fields[i]? = some f) (notMap : P.isMap f = false) {s : List Char}
    (plain : PlainText s) (short : ∀ x ∈ itemNumbers P f s, overlong x.1 x.2 = false)
    {a b : ReadState} (h : SameState P t a b) {stack : List (Block n)}
    (fair : (⟨(itemOpens P indent f s a.lines).2,
      (itemOpens P indent f s a.lines).1 ++ stack⟩ : ReadPlace n).AllFair P) :
    Twin P ⟨(itemOpens P indent f s a.lines).2, (itemOpens P indent f s a.lines).1 ++ stack⟩ stack t
      (readItem F P .cpp rc indent f i s a) (readItem F P .python rp indent f i s b) := by
  have text : PlainText (itemText s) := plain.of_sublist (itemText_sublist s)
  unfold itemNumbers at short
  unfold itemOpens at fair ⊢
  unfold readItem
  simp only [notMap, Bool.false_eq_true, and_false, ↓reduceIte]
  cases hs : f.type.messageType? with
  | none =>
    simp only [hs, List.nil_append] at fair ⊢
    by_cases hrest : itemText s = [] ∨ itemText s = ['[', ']']
    · simp only [hrest, ↓reduceIte]
      exact twin_here stack h fair
    · have number : overlong f.type (unquote (itemText s)) = false := by
        refine short (f.type, unquote (itemText s)) ?_
        simp [hs, hrest]
      simp only [hrest, ↓reduceIte, decide_true, Bool.true_or, reduceCtorEq, decide_false,
        Bool.false_or]
      by_cases many : f.repeated
      · rw [many]
        exact setScalar_twin hf text number true h fair
      · -- only a value that the field cannot hold passes the C++ reader here
        cases hx : parseScalar F .cpp f.type (unquote (itemText s)) with
        | some x =>
          have stopped : setScalar F .cpp f i (itemText s) true a = .error .accessor := by
            simp [setScalar, storeScalar, hx, addValue, many, orAbort, Except.map]
          rw [stopped]
          trivial
        | none =>
          have none' : parseScalar F .python f.type (unquote (itemText s)) = none := by
            rw [← parseScalar_eq F f.type (plainText_unquote text), hx]
          simp only [setScalar, storeScalar, hx, none', number, Bool.false_eq_true, and_false,
            reduceCtorEq, ↓reduceIte, Except.map]
          exact twin_here stack (a := { a with hits := a.hits + 0 }) ⟨h.lines, by simp [h.hits], h.msg⟩ fair
  | some t' =>
    simp only [hs] at fair ⊢ short
    by_cases many : f.repeated
    · have added := fun m => addMessage_eq hs many i (.message (P.new t')) m
      simp only [added, orAbort]
      rw [List.append_assoc, List.singleton_append] at fair ⊢
      have start : SameState P t' { a with msg := P.new t', hits := a.hits + 1 }
          { b with msg := P.new t', hits := b.hits + 1 } := ⟨h.lines, by simp [h.hits], rfl⟩
      have first := firstEntry_twin (F := F) hrec indent text
        (fun hne hflow x hx => short x (by simpa [hne, hflow] using hx)) start fair
      refine first.bind fun x y hxy fair' => ?_
      refine (hrec (.mapping (indent + 2) t') t' x y stack rfl hxy fair').bind fun u v huv fair'' => ?_
      refine twin_here stack (a := ⟨u.lines, _, u.hits⟩) ⟨huv.lines, huv.hits, ?_⟩ fair''
      simp only [modify_added]
      refine h.msg.append hf notMap ?_
      rw [contentValue_message hs notMap, contentValue_message hs notMap, huv.msg]
    · have refused : addValue .message f i (.message (P.new t')) a.msg = none := by
        simp [addValue, many]
      simp only [refused, orAbort]
      trivial

theorem storeScalar_new {s : Fin n} {kf vf : Field n} (hfields : (P.desc s).fields = [kf, vf])
    (hk : kf.repeated = false) (raw : List Char) :
    ∃ key k, storeScalar F .cpp kf 0 raw false (P.new s) = .ok ([key, vf.initial], k) := by
  have new : P.new s = [kf.initial, vf.initial] := by simp [Pool.new, hfields]
  simp only [storeScalar, reduceCtorEq, false_and, ↓reduceIte, new]
  cases parseScalar F .cpp kf.type (unquote raw) with
  | none => exact ⟨_, _, rfl⟩
  | some x => exact ⟨[.scalar x], 1, by simp [setValue, hk, orAbort, Except.map]⟩

section EntryValue

variable {s : Fin n} {kf vf : Field n} (hs : f.type.messageType? = some s)
  (hfields : (P.desc s).fields = [kf, vf]) (hv : vf.repeated = false) {a b : ReadState}
  (lines : a.lines = b.lines) (hits : a.hits = b.hits) (key : List Value) {stack : List (Block n)}
  {kc kp : ReadState → Except Fault ReadState}
  (hk : ∀ x y : ReadState, x.lines = y.lines → x.hits = y.hits →
    contentValue P f.type (.message x.msg) = contentValue P f.type (.message y.msg) →
    (⟨x.lines, stack⟩ : ReadPlace n).AllFair P → Twin P ⟨x.lines, stack⟩ stack t (kc x) (kp y))

include hv lines hits hk

/-- A scalar value: both readers hold the same entry. -/
theorem scalarEntry_twin (rc rp : Read n) (indent : Nat) (hty : vf.type.messageType? = none)
    {val : List Char} (plain : PlainText val)
    (short : ∀ x ∈ inlineNumbers vf.type val, overlong x.1 x.2 = false)
    (fair : (⟨a.lines, valueBlock indent vf val a.lines ++ stack⟩ : ReadPlace n).AllFair P) :
    Twin P ⟨a.lines, valueBlock indent vf val a.lines ++ stack⟩ stack t
      (readEntryValue F P .cpp rc indent vf val { a with msg := [key, vf.initial] } >>= kc)
      (readEntryValue F P .python rp indent vf val
        { b with msg := clearValue P .python vf [key, vf.initial] } >>= kp) := by
  have same : clearValue P .python vf [key, vf.initial] = [key, vf.initial] := by
    simp only [clearValue, hty]
  have noBlock : valueBlock indent vf val a.lines = [] := by
    unfold valueBlock
    split
    next h => simp [hty] at h
    next => rfl
  rw [noBlock, List.nil_append] at fair ⊢
  rw [same]
  have unread : ∀ lang rec, val = [] ∨ isFlow val → ∀ st : ReadState,
      readEntryValue F P lang rec indent vf val st = .ok st := by
    intro lang rec hval st
    rcases hval with rfl | hflow
    · simp only [readEntryValue, ne_eq, not_true_eq_false, ↓reduceIte, hty]
      split <;> simp_all
    · have ne : val ≠ [] := by
        rintro rfl
        exact absurd hflow (by decide)
      simp [readEntryValue, ne, hflow]
  by_cases hval : val = [] ∨ isFlow val
  · rw [unread .cpp rc hval, unread .python rp hval]
    exact hk _ _ lines hits rfl fair
  · have number : overlong vf.type (unquote val) = false :=
      short (vf.type, unquote val) (by simp [inlineNumbers, hval])
    rw [not_or] at hval
    obtain ⟨r, hr⟩ := storeScalar_ok (F := F) 1 val hv [key, vf.initial]
    simp only [readEntryValue, ne_eq, hval.1, not_false_eq_true, ↓reduceIte, hval.2,
      Bool.false_eq_true, storeScalar_eq vf 1 plain number, hr, Except.map]
    exact hk ⟨a.lines, r.1, a.hits⟩ ⟨b.lines, r.1, b.hits⟩ lines hits rfl fair

include hs hfields

/-- A message in a block of its own below the key; in Python it is there before it is read. -/
theorem blockEntry_twin {rc rp : Read n} (hrec : Mirrors P rc rp) (indent : Nat) {v : Fin n}
    (hty : vf.type.messageType? = some v) (notMap : P.isMap vf = false) {child : Ln}
    {rest : List Ln} (hlines : a.lines = child :: rest) (deeper : indent < child.indent)
    (fair : (⟨a.lines, valueBlock indent vf [] a.lines ++ stack⟩ : ReadPlace n).AllFair P) :
    Twin P ⟨a.lines, valueBlock indent vf [] a.lines ++ stack⟩ stack t
      (readEntryValue F P .cpp rc indent vf [] { a with msg := [key, []] } >>= kc)
      (readEntryValue F P .python rp indent vf [] { b with msg := [key, [.message (P.new v)]] } >>= kp) := by
  have start : ∀ value : List Value, value = [] ∨ value = [.message (P.new v)] →
      P.mutableMessage vf 1 [key, value] = some (P.new v) := by
    rintro value (rfl | rfl) <;> simp [Pool.mutableMessage, hty, hv]
  have block : valueBlock indent vf [] a.lines = [.mapping child.indent v] := by
    simp [valueBlock, hlines, hty, deeper]
  have read : ∀ lang rec value (st : ReadState), st.lines = a.lines →
      value = [] ∨ value = [.message (P.new v)] →
      readEntryValue F P lang rec indent vf [] { st with msg := [key, value] } =
        rec (.mapping child.indent v) { st with msg := P.new v } >>= fun r =>
          .ok { r with msg := [key, [.message r.msg]] } := by
    intro lang rec value st hst hvalue
    simp only [readEntryValue, ne_eq, not_true_eq_false, ↓reduceIte, hst, hlines, hty, deeper,
      readSub, start value hvalue, orAbort]
    rfl
  rw [block, List.singleton_append] at fair ⊢
  rw [read .cpp rc [] a rfl (.inl rfl), read .python rp _ b lines.symm (.inr rfl), bind_assoc,
    bind_assoc]
  refine (hrec (.mapping child.indent v) v { a with msg := P.new v } { b with msg := P.new v }
    stack rfl ⟨lines, hits, rfl⟩ fair).bind fun x y hxy fair' => ?_
  refine hk ⟨x.lines, _, x.hits⟩ ⟨y.lines, _, y.hits⟩ hxy.lines hxy.hits ?_ fair'
  refine contentValue_entry hs hfields key ?_
  rw [contentSlot_single notMap, contentSlot_single notMap, contentValue_message hty notMap,
    contentValue_message hty notMap, hxy.msg]

/-- The value of a map entry, and what is done with the entry then. -/
theorem readEntryValue_twin {rc rp : Read n} (hrec : Mirrors P rc rp) (indent : Nat)
    (entry : (P.desc s).mapEntry) {val : List Char} (plain : PlainText val)
    (short : ∀ x ∈ inlineNumbers vf.type val, overlong x.1 x.2 = false)
    (fair : (⟨a.lines, valueBlock indent vf val a.lines ++ stack⟩ : ReadPlace n).AllFair P) :
    Twin P ⟨a.lines, valueBlock indent vf val a.lines ++ stack⟩ stack t
      (readEntryValue F P .cpp rc indent vf val { a with msg := [key, vf.initial] } >>= kc)
      (readEntryValue F P .python rp indent vf val
        { b with msg := clearValue P .python vf [key, vf.initial] } >>= kp) := by
  have mem : vf ∈ (P.desc s).fields := by simp [hfields]
  have notMap : P.isMap vf = false := by
    by_contra hm
    have many := P.isMap_repeated mem (by simpa using hm)
    simp [hv] at many
  cases hty : vf.type.messageType? with
  | none => exact scalarEntry_twin hv lines hits key hk rc rp indent hty plain short fair
  | some v =>
    have unset : vf.initial = [] := by
      have presence := P.presence_message s vf mem hv (by simp [CppType.isMessage, hty])
      simp [Field.initial, presence]
    have cleared : clearValue P .python vf [key, vf.initial] = [key, [.message (P.new v)]] := by
      simp [clearValue, hty]
    rw [cleared, unset]
    have left := contentValue_unset (f := f) hs entry hfields hty notMap key
    cases val with
    | cons c cs =>
      have noBlock : valueBlock indent vf (c :: cs) a.lines = [] := rfl
      rw [noBlock, List.nil_append] at fair ⊢
      have kept : ∀ lang rec (st : ReadState),
          readEntryValue F P lang rec indent vf (c :: cs) st = .ok st := by
        intro lang rec st
        have type := CppType.eq_message hty
        by_cases hflow : isFlow (c :: cs)
        · simp [readEntryValue, hflow]
        · simp [readEntryValue, hflow, storeScalar, type, overlong, parseScalar, Except.map]
      rw [kept, kept]
      exact hk _ _ lines hits left fair
    | nil =>
      by_cases opens : ∃ child rest, a.lines = child :: rest ∧ indent < child.indent
      · obtain ⟨child, rest, hlines, deeper⟩ := opens
        exact blockEntry_twin hs hfields hv lines hits key hk hrec indent hty notMap hlines deeper fair
      · have block : valueBlock indent vf [] a.lines = [] := by
          unfold valueBlock
          split
          next hlines _ => exact if_neg fun deeper => opens ⟨_, _, hlines, deeper⟩
          next => rfl
        have kept : ∀ lang rec (st : ReadState), st.lines = a.lines →
            readEntryValue F P lang rec indent vf [] st = .ok st := by
          intro lang rec st hst
          simp only [readEntryValue, ne_eq, not_true_eq_false, ↓reduceIte, hst]
          split
          next hlines _ => exact if_neg fun deeper => opens ⟨_, _, hlines, deeper⟩
          next => rfl
        rw [block, List.nil_append] at fair ⊢
        rw [kept .cpp rc { a with msg := [key, []] } rfl,
          kept .python rp { b with msg := [key, [.message (P.new v)]] } lines.symm]
        exact hk _ _ lines hits left fair

end EntryValue

theorem readEntry_twin {rc rp : Read n} (hrec : Mirrors P rc rp) (indent : Nat)
    (hf : (P.desc t).fields[i]? = some f) (hm : P.isMap f) {s : List Char} (plain : PlainText s)
    (short : ∀ x ∈ pairNumbers P f s, overlong x.1 x.2 = false) {a b : ReadState}
    (h : SameState P t a b) {stack : List (Block n)}
    (fair : (⟨a.lines, valueOpens P indent f s a.lines ++ stack⟩ : ReadPlace n).AllFair P) :
    Twin P ⟨a.lines, valueOpens P indent f s a.lines ++ stack⟩ stack t
      (readEntry F P .cpp rc indent f i s a) (readEntry F P .python rp indent f i s b) := by
  obtain ⟨e, hs⟩ := Pool.isMap_message hm
  obtain ⟨entry, kf, vf, hfields, -, -, hk, hv, -⟩ := Pool.isMap_fields hm hs
  have many := P.isMap_repeated (List.mem_of_getElem? hf) hm
  have parts := splitKv_sublist s
  simp only [pairNumbers, hs, Option.map_some, hfields, List.forall_mem_cons] at short
  simp only [valueOpens, hs, Option.map_some, hfields] at fair ⊢
  obtain ⟨key, k, stored⟩ := storeScalar_new (F := F) hfields hk (splitKv s).1
  simp only [readEntry, hs, hfields, addMessage_eq hs many, orAbort,
    storeScalar_eq kf 0 (plain.of_sublist parts.1) short.1, stored]
  have same : clearValue P .cpp vf [key, vf.initial] = [key, vf.initial] := by simp [clearValue]
  have counted : a.hits + 1 = b.hits + 1 := by rw [h.hits]
  refine readEntryValue_twin (F := F) (a := { a with hits := a.hits + 1 })
    (b := { b with hits := b.hits + 1 }) hs hfields hv h.lines counted key
    (fun x y lines hits value fair' => ?_) hrec indent entry (plain.of_sublist parts.2) short.2 fair
  refine twin_here stack (a := ⟨x.lines, _, x.hits⟩) ⟨lines, hits, ?_⟩ fair'
  simp only [modify_added]
  exact h.msg.put hf hm value

/-- A line that a block holds, where its numbers are short enough. -/
theorem readLine_twin {rc rp : Read n} (hrec : Mirrors P rc rp) {b : Block n}
    (hb : Block.Of (P := P) t b) (notMap : ∀ indent i f, b = .sequence indent i f → P.isMap f = false)
    {s : List Char} (plain : PlainText s) (short : ¬ b.Overlong P s) {a c : ReadState}
    (h : SameState P t a c) {stack : List (Block n)}
    (fair : (⟨(b.opens P s a.lines).2, (b.opens P s a.lines).1 ++ stack⟩ : ReadPlace n).AllFair P) :
    Twin P ⟨(b.opens P s a.lines).2, (b.opens P s a.lines).1 ++ stack⟩ stack t
      (readLine F P .cpp rc b s a) (readLine F P .python rp b s c) := by
  have numbers : ∀ x ∈ b.numbers P s, overlong x.1 x.2 = false := by
    intro x hx
    by_contra long
    exact short ⟨x, hx, by simpa using long⟩
  cases b with
  | mapping indent u =>
    obtain rfl : u = t := hb
    exact applyEntry_twin hrec indent plain numbers h fair
  | sequence indent i f => exact readItem_twin hrec indent hb (notMap indent i f rfl) plain numbers h fair
  | map indent i f => exact readEntry_twin hrec indent hb.1 hb.2 plain numbers h fair

theorem setScalar_overlong {raw : List Char} (long : overlong f.type (unquote raw))
    (repeated : Bool) (st : ReadState) :
    setScalar F .python f i raw repeated st = .error .value := by
  simp [setScalar, storeScalar, long, Except.map]

theorem inlineNumbers_overlong {ty : CppType n} {val : List Char} {x : CppType n × List Char}
    (hx : x ∈ inlineNumbers ty val) (long : overlong x.1 x.2) :
    val ≠ [] ∧ isFlow val = false ∧ overlong ty (unquote val) := by
  unfold inlineNumbers at hx
  split at hx
  · exact absurd hx List.not_mem_nil
  next h =>
    rw [not_or] at h
    rw [List.mem_singleton.mp hx] at long
    exact ⟨h.1, by simpa using h.2, long⟩

/-- An entry whose number is too long stops the Python reader. -/
theorem entryNumbers_overlong {s : List Char} {x : CppType n × List Char}
    (hx : x ∈ entryNumbers P t s) (long : overlong x.1 x.2) :
    ∃ i f, (P.desc t).find? (unquote (splitKv s).1) = some (i, f) ∧ (splitKv s).2 ≠ [] ∧
      isFlow (splitKv s).2 = false ∧ overlong f.type (unquote (splitKv s).2) := by
  unfold entryNumbers at hx
  split at hx
  · exact absurd hx List.not_mem_nil
  next i f hfind => exact ⟨i, f, hfind, inlineNumbers_overlong hx long⟩

theorem readLine_overlong (rc rp : Read n) {b : Block n} (hb : Block.Of (P := P) t b)
    (notMap : ∀ indent i f, b = .sequence indent i f → P.isMap f = false) {s : List Char}
    (plain : PlainText s) (long : b.Overlong P s) (a c : ReadState) :
    (∃ e, readLine F P .cpp rc b s a = .error e) ∨
      readLine F P .python rp b s c = .error .value := by
  obtain ⟨x, hx, long⟩ := long
  cases b with
  | mapping indent u =>
    obtain ⟨i, f, hfind, some, flow, long⟩ := entryNumbers_overlong hx long
    refine .inr ?_
    simp only [readLine, applyEntry, hfind, ne_eq, some, not_false_eq_true, ↓reduceIte, flow,
      Bool.false_eq_true, setScalar_overlong long]
  | sequence indent i f =>
    have other := notMap indent i f rfl
    simp only [Block.numbers, itemNumbers] at hx
    cases hs : f.type.messageType? with
    | none =>
      rw [hs] at hx
      simp only at hx
      split at hx
      · exact absurd hx List.not_mem_nil
      next hrest =>
        rw [List.mem_singleton.mp hx] at long
        refine .inr ?_
        simp only [readLine, readItem, other, Bool.false_eq_true, and_false, ↓reduceIte, hs, hrest,
          setScalar_overlong long]
    | some u =>
      rw [hs] at hx
      simp only at hx
      split at hx
      · exact absurd hx List.not_mem_nil
      next hrest =>
        obtain ⟨j, g, hfind, some, flow, long⟩ := entryNumbers_overlong hx long
        by_cases many : f.repeated
        · have first : ∀ st, firstEntry F P .python rp indent u (itemText s) st = .error .value := by
            intro st
            simp only [firstEntry, hrest, hfind, ne_eq, some, not_false_eq_true, ↓reduceIte, flow,
              Bool.false_eq_true, setScalar_overlong long]
          refine .inr ?_
          simp only [readLine, readItem, other, Bool.false_eq_true, and_false, ↓reduceIte, hs,
            addMessage_eq hs many, orAbort, first]
          rfl
        · have refused : addValue .message f i (.message (P.new u)) a.msg = none := by
            simp [addValue, many]
          refine .inl ⟨.accessor, ?_⟩
          simp only [readLine, readItem, reduceCtorEq, false_and, ↓reduceIte, hs, refused, orAbort]
          rfl
  | map indent i f =>
    obtain ⟨hf, hm⟩ := hb
    obtain ⟨e, hs⟩ := Pool.isMap_message hm
    obtain ⟨-, kf, vf, hfields, -, -, hk, -⟩ := Pool.isMap_fields hm hs
    have many := P.isMap_repeated (List.mem_of_getElem? hf) hm
    have key := plain.of_sublist (splitKv_sublist s).1
    simp only [Block.numbers, pairNumbers, hs, Option.map_some, hfields, List.mem_cons] at hx
    refine .inr ?_
    simp only [readLine, readEntry, hs, hfields, addMessage_eq hs many, orAbort]
    by_cases longKey : overlong kf.type (unquote (splitKv s).1)
    · have stops : storeScalar F .python kf 0 (splitKv s).1 false (P.new e) = .error .value := by
        simp [storeScalar, longKey]
      rw [stops]
      rfl
    · have hval : x ∈ inlineNumbers vf.type (splitKv s).2 := by
        rcases hx with rfl | hx
        · exact absurd long longKey
        · exact hx
      obtain ⟨some, flow, long⟩ := inlineNumbers_overlong hval long
      obtain ⟨slot, k, stored⟩ := storeScalar_new (F := F) hfields hk (splitKv s).1
      have value : ∀ st, readEntryValue F P .python rp indent vf (splitKv s).2 st = .error .value := by
        intro st
        simp only [readEntryValue, ne_eq, some, not_false_eq_true, ↓reduceIte, flow,
          Bool.false_eq_true, storeScalar, long, and_self, Except.map]
      rw [storeScalar_eq kf 0 key (by simpa using longKey), stored]
      change (readEntryValue F P .python rp indent vf (splitKv s).2 _ >>= _) = _
      rw [value]
      rfl

theorem overlong_iff {b : Block n} {stack : List (Block n)} {l : Ln} {lines : List Ln}
    (hb : b.holds l) :
    (⟨l :: lines, b :: stack⟩ : ReadPlace n).Overlong P ↔ b.Overlong P l.s := by
  constructor
  · rintro ⟨b', stack', l', lines', hp, -, long⟩
    simp only [ReadPlace.mk.injEq, List.cons.injEq] at hp
    obtain ⟨⟨rfl, rfl⟩, rfl, rfl⟩ := hp
    exact long
  · exact fun long => ⟨b, stack, l, lines, rfl, hb, long⟩

/-- One more round of the loops. -/
theorem readStep_mirrors {rc rp : Read n} (hrec : Mirrors P rc rp) :
    Mirrors P (readStep F P .cpp rc) (readStep F P .python rp) := by
  intro b t a c stack hb h fair
  unfold readStep
  rw [← h.lines]
  cases hlines : a.lines with
  | nil =>
    rw [hlines] at fair
    have closes : (⟨[], b :: stack⟩ : ReadPlace n).next P = some ⟨[], stack⟩ := rfl
    have short : ¬ (⟨[], b :: stack⟩ : ReadPlace n).Overlong P := by
      rintro ⟨_, _, _, _, hp, -⟩
      simp at hp
    have here := twin_here stack h
      (by rw [hlines]; exact ((ReadPlace.along_next closes).mp fair).2)
    rw [hlines] at here
    exact here.next closes short
  | cons l lines =>
    rw [hlines] at fair
    have now := (ReadPlace.along_iff.mp fair).1
    have plain : PlainText l.s := now.1 l List.mem_cons_self
    have notMap : ∀ indent i f, b = .sequence indent i f → P.isMap f = false :=
      fun indent i f he => now.2 indent i f (by rw [he]; rfl)
    by_cases holds : b.holds l
    · simp only [holds, ↓reduceIte]
      by_cases long : b.Overlong P l.s
      · refine twin_of_overlong ((overlong_iff holds).mpr long) ?_
        rcases readLine_overlong (F := F) rc rp hb notMap plain long
          { a with lines := lines } { c with lines := lines } with ⟨e, he⟩ | he
        · exact .inl ⟨e, by rw [he]; rfl⟩
        · exact .inr (by rw [he]; rfl)
      · have opens : (⟨l :: lines, b :: stack⟩ : ReadPlace n).next P =
            some ⟨(b.opens P l.s lines).2, (b.opens P l.s lines).1 ++ b :: stack⟩ := by
          simp [ReadPlace.next, holds]
        have below := ((ReadPlace.along_next opens).mp fair).2
        have line := readLine_twin (F := F) hrec hb notMap plain long (a := { a with lines := lines })
          (c := { c with lines := lines }) ⟨rfl, h.hits, h.msg⟩ below
        have loop := line.bind fun x y hxy fair' => hrec b t x y stack hb hxy fair'
        exact loop.next opens fun hp => long ((overlong_iff holds).mp hp)
    · simp only [holds, Bool.false_eq_true, ↓reduceIte]
      have closes : (⟨l :: lines, b :: stack⟩ : ReadPlace n).next P = some ⟨l :: lines, stack⟩ := by
        simp [ReadPlace.next, holds]
      have short : ¬ (⟨l :: lines, b :: stack⟩ : ReadPlace n).Overlong P := by
        rintro ⟨b', stack', l', lines', hp, hb', -⟩
        simp only [ReadPlace.mk.injEq, List.cons.injEq] at hp
        obtain ⟨⟨rfl, rfl⟩, rfl, rfl⟩ := hp
        exact holds hb'
      have here := twin_here stack h
        (by rw [hlines]; exact ((ReadPlace.along_next closes).mp fair).2)
      rw [hlines] at here
      exact here.next closes short

theorem read_mirrors (bound : Nat) : Mirrors P (read F P .cpp bound) (read F P .python bound) := by
  induction bound with
  | zero => exact fun b t a c stack _ _ _ => trivial
  | succ bound ih => exact readStep_mirrors ih

theorem next_suffix {p q : ReadPlace n} (hq : p.next P = some q) : q.lines <:+ p.lines := by
  obtain ⟨lines, stack⟩ := p
  cases stack with
  | nil => simp [ReadPlace.next] at hq
  | cons b stack =>
    cases lines with
    | nil => rw [← Option.some.inj hq]
    | cons l lines =>
      simp only [ReadPlace.next] at hq
      split at hq
      · rw [← Option.some.inj hq]
        exact (opens_suffix P b l.s lines).trans (List.suffix_cons l lines)
      · rw [← Option.some.inj hq]

/-- The lines of a document stay plain all along. -/
theorem allFair_of_noMapItem {p : ReadPlace n} (plain : ∀ l ∈ p.lines, PlainText l.s)
    (items : p.Along P (ReadPlace.NoMapItem P)) : p.AllFair P := by
  intro q hq
  have lines : q.lines <:+ p.lines := by
    induction hq with
    | refl => exact List.suffix_rfl
    | tail _ hn ih => exact (next_suffix hn).trans ih
  exact ⟨fun l hl => plain l (lines.subset hl), items q hq⟩

/-- Where no block is open, nothing is read. -/
theorem allShort_closed (lines : List Ln) : (⟨lines, []⟩ : ReadPlace n).AllShort P := by
  refine ReadPlace.along_iff.mpr ⟨?_, fun q hq => ?_⟩
  · rintro ⟨_, _, _, _, hp, -⟩
    simp at hp
  · simp [ReadPlace.next] at hq

theorem allShort_emptyMapping (t : Fin n) :
    (⟨[⟨0, ['{', '}']⟩], [.mapping 0 t]⟩ : ReadPlace n).AllShort P := by
  have unknown : (P.desc t).find? ['{', '}'] = none := P.find?_of_not_isName t (by decide)
  have key : unquote (splitKv ['{', '}']).1 = ['{', '}'] := by decide
  refine (ReadPlace.along_next (next_emptyMapping t)).mpr ⟨?_, ?_⟩
  · have holds : (Block.mapping 0 t).holds ⟨0, ['{', '}']⟩ := rfl
    rw [overlong_iff holds]
    rintro ⟨x, hx, -⟩
    simp [Block.numbers, entryNumbers, key, unknown] at hx
  · have closes : (⟨[], [.mapping 0 t]⟩ : ReadPlace n).next P = some ⟨[], []⟩ := rfl
    refine (ReadPlace.along_next closes).mpr ⟨?_, allShort_closed []⟩
    rintro ⟨_, _, _, _, hp, -⟩
    simp at hp

end Twins

/-- The two readers do the same with a document: neither stops, both say the same of it, and the
messages have the same content. -/
def ReadersAgree (F : FloatText) (P : Pool n) (t : Fin n) (text : List Char) (m : Slots) : Prop :=
  ∃ found mc mp, fromYaml F P .cpp t text m = .ok (found, mc) ∧
    fromYaml F P .python t text m = .ok (found, mp) ∧ SameContent P t mc mp

/-- The readers agree on a document, where the C++ reader calls no mismatched accessor and no dash
stands below a map, exactly if no number in it is too long for Python. -/
theorem readersAgree_iff (F : FloatText) (P : Pool n) (t : Fin n) (text : List Char) (m : Slots)
    (plain : PlainText text) (quiet : fromYaml F P .cpp t text m ≠ .error .accessor)
    (items : NoMapItems P t text) :
    ReadersAgree F P t text m ↔ ShortNumbers P t text := by
  have fair := allFair_of_noMapItem (plainText_tokenize plain) items
  have twin := read_mirrors (F := F) ((tokenize text).length + 1) (.mapping 0 t) t
    ⟨tokenize text, m, 0⟩ ⟨tokenize text, m, 0⟩ [] rfl ⟨rfl, rfl, rfl⟩ fair
  have reads := read_agrees (F := F) (P := P) t (tokenize text) m
  unfold fromYaml at quiet
  unfold ReadersAgree ShortNumbers fromYaml
  by_cases empty : tokenize text = [⟨0, ['{', '}']⟩]
  · simp only [empty, ↓reduceIte]
    exact ⟨fun _ => allShort_emptyMapping t, fun _ => ⟨true, m, m, rfl, rfl, rfl⟩⟩
  · simp only [empty, ↓reduceIte] at quiet ⊢
    cases hc : read F P .cpp ((tokenize text).length + 1) (.mapping 0 t) ⟨tokenize text, m, 0⟩ with
    | error e =>
      rw [hc] at reads quiet
      exact absurd (congrArg Except.error reads.1) quiet
    | ok a =>
      cases hp : read F P .python ((tokenize text).length + 1) (.mapping 0 t)
          ⟨tokenize text, m, 0⟩ with
      | error e =>
        rw [hc, hp] at twin
        exact ⟨fun ⟨_, _, _, _, hpy, _⟩ => by simp [Except.map] at hpy, fun short => absurd short twin.2⟩
      | ok b =>
        rw [hc, hp] at twin
        obtain ⟨same, -, short⟩ := twin
        refine ⟨fun _ => short.mpr (allShort_closed a.lines), fun _ => ?_⟩
        exact ⟨_, a.msg, b.msg, rfl, by simp [Except.map, same.hits], same.msg⟩

theorem noMapItems_userPool (t : Fin 1) (text : List Char) : NoMapItems userPool t text := by
  intro q _ indent i f _
  unfold Pool.isMap
  split <;> rfl

def keyField : Field 1 := { name := ['H', 'A', 'R', 'P', 'I', 'A', '_', 'I', 'D'], type := .int64 }

/-- A document with one key, and a run of ones for its value. -/
def onesText (k : Nat) : List Char :=
  lineText [⟨0, keyField.name ++ ':' :: ' ' :: List.replicate k '1'⟩]

theorem plainText_onesText (k : Nat) : PlainText (onesText k) := by
  have name : ∀ c ∈ keyField.name, isPlain c := List.all_eq_true.mp (by decide)
  have other : ∀ c ∈ [':', ' ', '1', '\n'], isPlain c := List.all_eq_true.mp (by decide)
  simp only [List.forall_mem_cons] at other
  intro c hc
  simp only [onesText, render_cons, render_nil, renderLn, pad, List.replicate_zero, List.nil_append,
    List.append_nil, List.mem_append, List.mem_cons, List.not_mem_nil, or_false,
    List.mem_replicate] at hc
  rcases hc with (hc | rfl | rfl | ⟨-, rfl⟩) | rfl
  · exact name c hc
  · exact other.1
  · exact other.2.1
  · exact other.2.2.1
  · exact other.2.2.2.1

theorem readersAgree_iff_seven :
    (ReadersAgree zeroFloats userPool 0 (onesText 7) (userPool.new 0) ↔
      ShortNumbers userPool 0 (onesText 7)) ∧
      ReadersAgree zeroFloats userPool 0 (onesText 7) (userPool.new 0) := by
  have read : ∀ lang, fromYaml zeroFloats userPool lang 0 (onesText 7) (userPool.new 0) =
      .ok (true, [[.scalar (.int 1111111)], [.scalar (.text [])]]) := fun lang => by cases lang <;> rfl
  refine ⟨readersAgree_iff zeroFloats userPool 0 (onesText 7) (userPool.new 0)
    (plainText_onesText 7) ?_ (noMapItems_userPool 0 _), true, _, _, read .cpp, read .python, rfl⟩
  rw [read]
  simp

section Ones

variable {k : Nat}

theorem isName_ones (h : 0 < k) : isName (List.replicate k '1') := by
  have word : isWord '1' := by decide
  obtain ⟨k, rfl⟩ : ∃ j, k = j + 1 := ⟨k - 1, by omega⟩
  simp [isName, List.replicate_succ, word]

theorem tokenize_onesText (h : 0 < k) : tokenize (onesText k) =
    [⟨0, keyField.name ++ ':' :: ' ' :: List.replicate k '1'⟩] := by
  refine tokenize_lineText fun l hl => ?_
  rw [List.mem_singleton.mp hl]
  exact lineOk_headed_inline 0 (isName_inline (by decide)) (.bare (isName_ones h))

theorem numberDigits_ones (h : 0 < k) :
    numberDigits (List.replicate k '1') = List.replicate k '1' := by
  have space : isSpace '1' = false := by decide
  obtain ⟨k, rfl⟩ : ∃ j, k = j + 1 := ⟨k - 1, by omega⟩
  have kept : (List.replicate (k + 1) '1').dropWhile isSpace = '1' :: List.replicate k '1' := by
    rw [List.replicate_succ, List.dropWhile_cons, space]
    rfl
  have digits : ∀ c ∈ '1' :: List.replicate k '1', c.isDigit := by
    intro c hc
    rw [← List.replicate_succ] at hc
    rw [List.eq_of_mem_replicate hc]
    decide
  have start : numberDigits (List.replicate (k + 1) '1') =
      ('1' :: List.replicate k '1').takeWhile Char.isDigit := by
    rw [numberDigits, kept]
    rfl
  rw [start, List.takeWhile_eq_self_iff.mpr digits, List.replicate_succ]

/-- What either reader does with the only line of the document. -/
theorem fromYaml_onesText (lang : Lang) (h : 0 < k) (m : Slots) :
    fromYaml zeroFloats userPool lang 0 (onesText k) m =
      (setScalar zeroFloats lang keyField 0 (List.replicate k '1') false ⟨[], m, 0⟩).bind fun r =>
        .ok (decide (r.hits ≠ 0), r.msg) := by
  have inline : Inline (List.replicate k '1') := .bare (isName_ones h)
  obtain ⟨value, nonempty, flow⟩ := inline_value inline
  have key : Inline keyField.name := .bare (by decide)
  have found : (userPool.desc 0).find? (unquote keyField.name) = some (0, keyField) := by decide
  have line : (Block.mapping 0 0 : Block 1).holds
      ⟨0, keyField.name ++ ':' :: ' ' :: List.replicate k '1'⟩ := holds_mapping key _
  have entry : applyEntry zeroFloats userPool lang (read zeroFloats userPool lang 1) 0 0
      (keyField.name ++ ':' :: ' ' :: List.replicate k '1') ⟨[], m, 0⟩ =
        setScalar zeroFloats lang keyField 0 (List.replicate k '1') false ⟨[], m, 0⟩ := by
    simp only [applyEntry, splitKv_inline key, found, value, ne_eq, nonempty, not_false_eq_true,
      ↓reduceIte, flow, Bool.false_eq_true]
    rfl
  have notEmpty : ([⟨0, keyField.name ++ ':' :: ' ' :: List.replicate k '1'⟩] : List Ln) ≠
      [⟨0, ['{', '}']⟩] := by
    simp [keyField]
  rw [fromYaml]
  simp only [tokenize_onesText h, notEmpty, ↓reduceIte, List.length_singleton]
  rw [read_line 1 line, readLine, entry, setScalar]
  cases storeScalar zeroFloats lang keyField 0 (List.replicate k '1') false m with
  | error e => rfl
  | ok r =>
    simp only [Except.map, bind, Except.bind]
    rw [read_ends 0 (.mapping 0 0) (by simp [Ends])]
    simp

end Ones

/-- At a run of 4301 digits the C++ reader stores a value, and the Python reader raises. -/
theorem not_readersAgree_ones :
    PlainText (onesText 4301) ∧
      (∃ m, fromYaml zeroFloats userPool .cpp 0 (onesText 4301) (userPool.new 0) = .ok (true, m)) ∧
      NoMapItems userPool 0 (onesText 4301) ∧
      ¬ ReadersAgree zeroFloats userPool 0 (onesText 4301) (userPool.new 0) := by
  have positive : 0 < 4301 := by decide
  have long : overlong keyField.type (unquote (List.replicate 4301 '1')) := by
    have digits := numberDigits_ones positive
    rw [unquote_name (isName_ones positive)]
    simp only [overlong, keyField, digits, List.length_replicate]
    decide
  refine ⟨plainText_onesText 4301, ?_, noMapItems_userPool 0 _, ?_⟩
  · rw [fromYaml_onesText .cpp positive]
    exact ⟨_, rfl⟩
  · rintro ⟨found, mc, mp, -, hp, -⟩
    rw [fromYaml_onesText .python positive, setScalar_overlong long] at hp
    exact absurd hp (by simp [Except.bind])

end Harpia
