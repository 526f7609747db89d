import Harpia.YamlReader
import Mathlib.Logic.Relation

namespace Harpia

open Text Reflection

variable {n : Nat}

/-- A place in a document: the lines from there on, and the blocks that are open, innermost
first. -/
structure ReadPlace (n : Nat) where
  lines : List Ln
  stack : List (Block n)

section Layout

variable (F : FloatText) (P : Pool n)

/-- The block below the key of a field, by the first line of it, and the lines it starts at. -/
def blockBelow (indent : Nat) (i : Nat) (f : Field n) (lines : List Ln) :
    List (Block n) × List Ln :=
  match lines with
  | [] => ([], [])
  | child :: _ =>
    if child.indent ≤ indent then ([], lines)
    else if isSeqItem child.s then ([.sequence child.indent i f], lines)
    else if P.isMap f then ([.map child.indent i f], lines)
    else
      match f.singleMessage? with
      | some s => ([.mapping child.indent s], lines)
      | none => ([], skipBlock child.indent lines)

def entryOpens (indent : Nat) (t : Fin n) (s : List Char) (lines : List Ln) :
    List (Block n) × List Ln :=
  match (P.desc t).find? (unquote (splitKv s).1) with
  | none => ([], if (splitKv s).2 = [] then skipBlock indent lines else lines)
  | some (i, f) => if (splitKv s).2 = [] then blockBelow P indent i f lines else ([], lines)

/-- The block below a key that stands on the line of a dash: no mapping is taken for a map. -/
def blockBelowFirst (indent : Nat) (i : Nat) (f : Field n) (lines : List Ln) :
    List (Block n) × List Ln :=
  match lines with
  | [] => ([], [])
  | child :: _ =>
    if child.indent ≤ indent + 2 then ([], lines)
    else if isSeqItem child.s then ([.sequence child.indent i f], lines)
    else
      match f.type.messageType? with
      | some s => ([.mapping child.indent s], lines)
      | none => ([], skipBlock (indent + 2) lines)

def firstOpens (indent : Nat) (t : Fin n) (rest : List Char) (lines : List Ln) :
    List (Block n) × List Ln :=
  if rest = [] ∨ rest = ['{', '}'] then ([], lines)
  else
    match (P.desc t).find? (unquote (splitKv rest).1) with
    | none => ([], lines)
    | some (i, f) => if (splitKv rest).2 = [] then blockBelowFirst indent i f lines else ([], lines)

/-- An element that is a message has its own fields, two columns behind the dash. -/
def itemOpens (indent : Nat) (f : Field n) (s : List Char) (lines : List Ln) :
    List (Block n) × List Ln :=
  match f.type.messageType? with
  | none => ([], lines)
  | some t =>
    let first := firstOpens P indent t (itemText s) lines
    (first.1 ++ [.mapping (indent + 2) t], first.2)

/-- The message of a map entry, below its key. -/
def valueBlock (indent : Nat) (vf : Field n) (val : List Char) (lines : List Ln) :
    List (Block n) :=
  match val, lines, vf.type.messageType? with
  | [], child :: _, some v => if indent < child.indent then [.mapping child.indent v] else []
  | _, _, _ => []

def valueOpens (indent : Nat) (f : Field n) (s : List Char) (lines : List Ln) : List (Block n) :=
  match f.type.messageType?.map fun t => (P.desc t).fields with
  | some [_, vf] => valueBlock indent vf (splitKv s).2 lines
  | _ => []

/-- The blocks that a line of a block opens, innermost first, and the lines from there on. -/
def Block.opens (b : Block n) (s : List Char) (lines : List Ln) : List (Block n) × List Ln :=
  match b with
  | .mapping indent t => entryOpens P indent t s lines
  | .sequence indent _ f => itemOpens P indent f s lines
  | .map indent _ f => (valueOpens P indent f s lines, lines)

/-- From one place of a document to the next: a line that the innermost block does not hold
closes it. -/
def ReadPlace.next (p : ReadPlace n) : Option (ReadPlace n) :=
  match p.stack with
  | [] => none
  | b :: stack =>
    match p.lines with
    | [] => some ⟨[], stack⟩
    | l :: lines =>
      if b.holds l then some ⟨(b.opens P l.s lines).2, (b.opens P l.s lines).1 ++ b :: stack⟩
      else some ⟨l :: lines, stack⟩

/-- An element below the key of a singular field, where it is a message or has a value that the
field could hold. -/
def StrayItem (f : Field n) (s : List Char) : Prop :=
  f.repeated = false ∧ (f.type.isMessage ∨
    (itemText s ≠ [] ∧ itemText s ≠ ['[', ']'] ∧
      (parseScalar F .cpp f.type (unquote (itemText s))).isSome))

/-- A mapping below the first key of an element, where that names a repeated message field. -/
def StrayMapping (indent : Nat) (f : Field n) (s : List Char) (lines : List Ln) : Prop :=
  ∃ t i g child rest, f.type.messageType? = some t ∧ itemText s ≠ [] ∧ itemText s ≠ ['{', '}'] ∧
    (P.desc t).find? (unquote (splitKv (itemText s)).1) = some (i, g) ∧
    (splitKv (itemText s)).2 = [] ∧ g.repeated ∧ g.type.isMessage ∧ lines = child :: rest ∧
    indent + 2 < child.indent ∧ isSeqItem child.s = false

/-- Only the entries of a map are read as such. -/
def Block.Fits (b : Block n) : Prop :=
  match b with
  | .map _ _ f => P.isMap f ∧ f.repeated
  | _ => True

/-- The next line stands where its field cannot take it. -/
def ReadPlace.Misplaced (p : ReadPlace n) : Prop :=
  ∃ indent i f stack l lines, p = ⟨l :: lines, .sequence indent i f :: stack⟩ ∧ l.indent = indent ∧
    isSeqItem l.s ∧ (StrayItem F f l.s ∨ StrayMapping P indent f l.s lines)

/-- No line from a place on is misplaced. -/
def ReadPlace.Safe (p : ReadPlace n) : Prop :=
  ∀ q, Relation.ReflTransGen (fun a b => a.next P = some b) p q → ¬ q.Misplaced F P

/-- The document has every line where its field can take it. -/
def WellPlaced (t : Fin n) (text : List Char) : Prop :=
  (⟨tokenize text, [.mapping 0 t]⟩ : ReadPlace n).Safe F P

end Layout

variable {F : FloatText} {P : Pool n}

theorem ReadPlace.safe_iff {p : ReadPlace n} :
    p.Safe F P ↔ ¬ p.Misplaced F P ∧ ∀ q, p.next P = some q → q.Safe F P := by
  constructor
  · intro h
    exact ⟨h p .refl, fun q hq r hr => h r (hr.head hq)⟩
  · rintro ⟨here, below⟩ q hq
    rcases hq.cases_head with rfl | ⟨r, hr, hrq⟩
    · exact here
    · exact below r hr q hrq

theorem ReadPlace.safe_nil (lines : List Ln) : (⟨lines, []⟩ : ReadPlace n).Safe F P := by
  rw [ReadPlace.safe_iff]
  refine ⟨?_, fun q hq => ?_⟩
  · rintro ⟨indent, i, f, stack, l, rest, hp, -⟩
    simp at hp
  · simp [ReadPlace.next] at hq

/-- What a reader does between two places: it stops only before a misplaced line. -/
def Agrees (F : FloatText) (P : Pool n) (p : ReadPlace n) (stack : List (Block n)) :
    Except Fault ReadState → Prop
  | .ok st => st.lines.length ≤ p.lines.length ∧ (p.Safe F P ↔ (⟨st.lines, stack⟩ : ReadPlace n).Safe F P)
  | .error e => e = .accessor ∧ ¬ p.Safe F P

theorem agrees_here (st : ReadState) (stack : List (Block n)) :
    Agrees F P ⟨st.lines, stack⟩ stack (.ok st) :=
  ⟨le_rfl, Iff.rfl⟩

theorem Agrees.next {p q : ReadPlace n} {stack : List (Block n)} {r : Except Fault ReadState}
    (h : Agrees F P q stack r) (placed : ¬ p.Misplaced F P) (hq : p.next P = some q)
    (shorter : q.lines.length ≤ p.lines.length) : Agrees F P p stack r := by
  have safe : p.Safe F P ↔ q.Safe F P := by
    rw [ReadPlace.safe_iff]
    refine ⟨fun hp => hp.2 q hq, fun hs => ⟨placed, fun q' hq' => ?_⟩⟩
    rwa [← Option.some.inj (hq.symm.trans hq')]
  cases r with
  | error e => exact ⟨h.1, fun hs => h.2 (safe.mp hs)⟩
  | ok st => exact ⟨h.1.trans shorter, safe.trans h.2⟩

theorem Agrees.bind {p : ReadPlace n} {inner outer : List (Block n)} {r : Except Fault ReadState}
    {k : ReadState → Except Fault ReadState} (h : Agrees F P p inner r)
    (hk : ∀ st, st.lines.length ≤ p.lines.length → Agrees F P ⟨st.lines, inner⟩ outer (k st)) :
    Agrees F P p outer (r >>= k) := by
  cases r with
  | error e => exact h
  | ok st =>
    have hst := hk st h.1
    change Agrees F P p outer (k st)
    cases hr : k st with
    | error e =>
      rw [hr] at hst
      exact ⟨hst.1, fun hs => hst.2 (h.2.mp hs)⟩
    | ok st' =>
      rw [hr] at hst
      exact ⟨hst.1.trans h.1, h.2.trans hst.2⟩

/-- A reader that agrees with the places on documents below some length. -/
def Follows (F : FloatText) (P : Pool n) (bound : Nat) (rec : Read n) : Prop :=
  ∀ b st stack, b.Fits P → st.lines.length < bound →
    Agrees F P ⟨st.lines, b :: stack⟩ stack (rec b st)

theorem storeScalar_ok {f : Field n} (i : Nat) (raw : List Char) {repeated : Bool}
    (hr : f.repeated = repeated) (m : Slots) : ∃ r, storeScalar F .cpp f i raw repeated m = .ok r := by
  simp only [storeScalar, reduceCtorEq, false_and, ↓reduceIte]
  cases parseScalar F .cpp f.type (unquote raw) with
  | none => exact ⟨_, rfl⟩
  | some x => cases repeated <;> simp [addValue, setValue, hr, orAbort, Except.map]

theorem setScalar_agrees {f : Field n} (i : Nat) (raw : List Char) {repeated : Bool}
    (hr : f.repeated = repeated) (st : ReadState) (stack : List (Block n)) :
    Agrees F P ⟨st.lines, stack⟩ stack (setScalar F .cpp f i raw repeated st) := by
  obtain ⟨r, h⟩ := storeScalar_ok (F := F) i raw hr st.msg
  rw [setScalar, h]
  exact agrees_here { st with msg := r.1, hits := st.hits + r.2 } stack

theorem skipBlock_suffix (indent : Nat) (lines : List Ln) : skipBlock indent lines <:+ lines :=
  List.dropWhile_suffix _

theorem firstOpens_suffix (P : Pool n) (indent : Nat) (t : Fin n) (rest : List Char)
    (lines : List Ln) : (firstOpens P indent t rest lines).2 <:+ lines := by
  unfold firstOpens blockBelowFirst
  repeat' split
  all_goals first | exact List.suffix_rfl | exact skipBlock_suffix _ _

theorem opens_suffix (P : Pool n) (b : Block n) (s : List Char) (lines : List Ln) :
    (b.opens P s lines).2 <:+ lines := by
  cases b with
  | mapping indent t =>
    simp only [Block.opens, entryOpens, blockBelow]
    repeat' split
    all_goals first | exact List.suffix_rfl | exact skipBlock_suffix _ _
  | sequence indent i f =>
    simp only [Block.opens, itemOpens]
    split
    · exact List.suffix_rfl
    · exact firstOpens_suffix P indent _ _ lines
  | map indent i f => exact List.suffix_rfl

theorem readSub_agrees {bound : Nat} {rec : Read n} (hrec : Follows F P bound rec)
    {f : Field n} {s : Fin n} (hs : f.type.messageType? = some s) (hr : f.repeated = false)
    (indent : Nat) (i : Nat) (st : ReadState) (hl : st.lines.length < bound)
    (stack : List (Block n)) :
    Agrees F P ⟨st.lines, .mapping indent s :: stack⟩ stack
      (readSub P rec (.mapping indent s) f i st) := by
  obtain ⟨sub, hsub⟩ : ∃ sub, P.mutableMessage f i st.msg = some sub := by
    simp only [Pool.mutableMessage, hs, hr, Bool.false_eq_true, ↓reduceIte]
    split <;> exact ⟨_, rfl⟩
  have inside := hrec (.mapping indent s) { st with msg := sub } stack trivial hl
  rw [readSub, hsub]
  exact inside.bind fun r _ => agrees_here { r with msg := st.msg.set i [.message r.msg] } stack

theorem applyEntry_agrees {bound : Nat} {rec : Read n} (hrec : Follows F P bound rec)
    (indent : Nat) (t : Fin n) (s : List Char) (st : ReadState) (hl : st.lines.length < bound)
    (stack : List (Block n)) :
    Agrees F P ⟨(entryOpens P indent t s st.lines).2, (entryOpens P indent t s st.lines).1 ++ stack⟩
      stack (applyEntry F P .cpp rec indent t s st) := by
  unfold applyEntry entryOpens
  simp only
  cases hfind : (P.desc t).find? (unquote (splitKv s).1) with
  | none =>
    by_cases hv : (splitKv s).2 = []
    · simpa [hv] using agrees_here { st with lines := skipBlock indent st.lines } stack
    · simpa [hv] using agrees_here st stack
  | some found =>
    obtain ⟨i, f⟩ := found
    have hf : f ∈ (P.desc t).fields := List.mem_of_getElem? (Descriptor.find?_mem hfind)
    by_cases hv : (splitKv s).2 = []
    · simp only [hv, ne_eq, not_true_eq_false, ↓reduceIte, blockBelow]
      cases hlines : st.lines with
      | nil => simpa [hlines] using agrees_here st stack
      | cons child rest =>
        rw [hlines] at hl
        simp only
        by_cases hc : child.indent ≤ indent
        · simpa [hc, hlines] using agrees_here st stack
        · by_cases hq : isSeqItem child.s
          · simpa [hc, hq, hlines] using hrec (.sequence child.indent i f) st stack trivial
              (by simpa [hlines] using hl)
          · by_cases hm : P.isMap f
            · have fits : (Block.map child.indent i f).Fits P := ⟨hm, P.isMap_repeated hf hm⟩
              simpa [hc, hq, hm, hlines] using hrec (.map child.indent i f) st stack fits
                (by simpa [hlines] using hl)
            · simp only [hc, hq, hm, ↓reduceIte]
              cases hs : f.singleMessage? with
              | none =>
                simpa [hlines] using
                  agrees_here { st with lines := skipBlock child.indent st.lines } stack
              | some v =>
                obtain ⟨hv, hr⟩ := Field.singleMessage?_eq_some hs
                simpa [hlines] using readSub_agrees hrec hv hr child.indent i st
                  (by simpa [hlines] using hl) stack
    · simp only [hv, ne_eq, not_false_eq_true, ↓reduceIte]
      by_cases hflow : isFlow (splitKv s).2
      · simpa [hflow] using agrees_here st stack
      · simpa [hflow] using setScalar_agrees i (splitKv s).2 rfl st stack

theorem firstEntry_agrees {bound : Nat} {rec : Read n} (hrec : Follows F P bound rec)
    (indent : Nat) (t : Fin n) (rest : List Char) (st : ReadState) (hl : st.lines.length < bound)
    (placed : ∀ i g child tail, rest ≠ [] → rest ≠ ['{', '}'] →
      (P.desc t).find? (unquote (splitKv rest).1) = some (i, g) → (splitKv rest).2 = [] → g.repeated →
      g.type.isMessage → st.lines = child :: tail → indent + 2 < child.indent → isSeqItem child.s)
    (stack : List (Block n)) :
    Agrees F P ⟨(firstOpens P indent t rest st.lines).2,
      (firstOpens P indent t rest st.lines).1 ++ stack⟩ stack
      (firstEntry F P .cpp rec indent t rest st) := by
  unfold firstEntry firstOpens
  by_cases hrest : rest = [] ∨ rest = ['{', '}']
  · simpa [hrest] using agrees_here st stack
  simp only [hrest, ↓reduceIte]
  rw [not_or] at hrest
  cases hfind : (P.desc t).find? (unquote (splitKv rest).1) with
  | none => exact agrees_here st stack
  | some found =>
    obtain ⟨i, f⟩ := found
    by_cases hv : (splitKv rest).2 = []
    · simp only [hv, ne_eq, not_true_eq_false, ↓reduceIte, blockBelowFirst]
      cases hlines : st.lines with
      | nil => simpa [hlines] using agrees_here st stack
      | cons child tail =>
        simp only
        by_cases hc : child.indent ≤ indent + 2
        · simpa [hc, hlines] using agrees_here st stack
        · by_cases hq : isSeqItem child.s
          · simpa [hc, hq, hlines] using hrec (.sequence child.indent i f) st stack trivial hl
          · simp only [hc, hq, ↓reduceIte, reduceCtorEq]
            cases hs : f.type.messageType? with
            | none =>
              simpa [hlines] using
                agrees_here { st with lines := skipBlock (indent + 2) st.lines } stack
            | some v =>
              have single : f.repeated = false := by
                by_contra hr
                exact hq (placed i f child tail hrest.1 hrest.2 hfind hv (by simpa using hr)
                  (by simp [CppType.isMessage, hs]) hlines (by omega))
              simpa [hlines] using readSub_agrees hrec hs single child.indent i st hl stack
    · simp only [hv, ne_eq, not_false_eq_true, ↓reduceIte]
      by_cases hflow : isFlow (splitKv rest).2
      · simpa [hflow] using agrees_here st stack
      · simpa [hflow] using setScalar_agrees i (splitKv rest).2 rfl st stack

/-- An element that is well placed. -/
theorem readItem_agrees {bound : Nat} {rec : Read n} (hrec : Follows F P bound rec)
    (indent i : Nat) (f : Field n) (s : List Char) (st : ReadState) (hl : st.lines.length < bound)
    (item : ¬ StrayItem F f s) (mapping : ¬ StrayMapping P indent f s st.lines)
    (stack : List (Block n)) :
    Agrees F P ⟨(itemOpens P indent f s st.lines).2, (itemOpens P indent f s st.lines).1 ++ stack⟩
      stack (readItem F P .cpp rec indent f i s st) := by
  unfold readItem itemOpens
  simp only [reduceCtorEq, false_and, ↓reduceIte]
  cases hs : f.type.messageType? with
  | none =>
    by_cases hrest : itemText s = [] ∨ itemText s = ['[', ']']
    · simpa [hrest] using agrees_here st stack
    · simp only [hrest, ↓reduceIte, decide_true, Bool.true_or]
      have stored : ∃ r, storeScalar F .cpp f i (itemText s) true st.msg = .ok r := by
        by_cases hr : f.repeated
        · exact storeScalar_ok i _ hr st.msg
        · have nothing : parseScalar F .cpp f.type (unquote (itemText s)) = none := by
            rw [not_or] at hrest
            by_contra hx
            exact item ⟨by simpa using hr, .inr ⟨hrest.1, hrest.2,
              Option.isSome_iff_ne_none.mpr hx⟩⟩
          exact ⟨(st.msg, 0), by simp [storeScalar, nothing]⟩
      obtain ⟨r, hr⟩ := stored
      rw [setScalar, hr]
      exact agrees_here { st with msg := r.1, hits := st.hits + r.2 } stack
  | some t =>
    have many : f.repeated := by
      by_contra hr
      exact item ⟨by simpa using hr, .inl (by simp [CppType.isMessage, hs])⟩
    have added : addValue .message f i (.message (P.new t)) st.msg =
        some (st.msg.modify i (· ++ [.message (P.new t)])) := by
      cases hty : f.type <;> simp_all [CppType.messageType?, addValue, CppType.kind]
    simp only [added, orAbort]
    have first := firstEntry_agrees hrec indent t (itemText s)
      { st with msg := P.new t, hits := st.hits + 1 } hl
      (fun j g child tail hne hflow hfind hv hg hm hlines hc => by
        by_contra hq
        exact mapping ⟨t, j, g, child, tail, hs, hne, hflow, hfind, hv, hg, hm, hlines, hc,
          by simpa using hq⟩) (.mapping (indent + 2) t :: stack)
    rw [List.append_assoc, List.singleton_append]
    refine first.bind fun st' hst' => ?_
    have shorter : st'.lines.length < bound :=
      (hst'.trans (firstOpens_suffix P indent t (itemText s) st.lines).length_le).trans_lt hl
    refine (hrec (.mapping (indent + 2) t) st' stack trivial shorter).bind fun item _ => ?_
    exact agrees_here { item with msg := _ } stack

theorem addMessage_eq {f : Field n} {t : Fin n} (hs : f.type.messageType? = some t)
    (hr : f.repeated) (i : Nat) (v : Value) (m : Slots) :
    addValue .message f i v m = some (m.modify i (· ++ [v])) := by
  cases hty : f.type <;> simp_all [CppType.messageType?, addValue, CppType.kind]

theorem readEntryValue_agrees {bound : Nat} {rec : Read n} (hrec : Follows F P bound rec)
    (indent : Nat) {vf : Field n} (hr : vf.repeated = false) (val : List Char) (st : ReadState)
    (hl : st.lines.length < bound) (stack : List (Block n)) :
    Agrees F P ⟨st.lines, valueBlock indent vf val st.lines ++ stack⟩ stack
      (readEntryValue F P .cpp rec indent vf val st) := by
  unfold readEntryValue
  cases val with
  | nil =>
    cases hlines : st.lines with
    | nil => simpa [valueBlock, hlines] using agrees_here st stack
    | cons child tail =>
      cases hs : vf.type.messageType? with
      | none => simpa [valueBlock, hs, hlines] using agrees_here st stack
      | some v =>
        by_cases hc : indent < child.indent
        · simpa [valueBlock, hs, hlines, hc] using
            readSub_agrees hrec hs hr child.indent 1 st hl stack
        · simpa [valueBlock, hs, hlines, hc] using agrees_here st stack
  | cons c cs =>
    by_cases hflow : isFlow (c :: cs)
    · simpa [valueBlock, hflow] using agrees_here st stack
    · obtain ⟨r, h⟩ := storeScalar_ok (F := F) 1 (c :: cs) hr st.msg
      simpa [valueBlock, hflow, h, Except.map] using agrees_here { st with msg := r.1 } stack

theorem readEntry_agrees {bound : Nat} {rec : Read n} (hrec : Follows F P bound rec)
    (indent i : Nat) {f : Field n} (hm : P.isMap f) (hr : f.repeated) (s : List Char)
    (st : ReadState) (hl : st.lines.length < bound) (stack : List (Block n)) :
    Agrees F P ⟨st.lines, valueOpens P indent f s st.lines ++ stack⟩ stack
      (readEntry F P .cpp rec indent f i s st) := by
  obtain ⟨t, hs⟩ := Pool.isMap_message hm
  obtain ⟨-, kf, vf, hfields, -, -, hk, hv, -⟩ := Pool.isMap_fields hm hs
  obtain ⟨e, he⟩ := storeScalar_ok (F := F) 0 (splitKv s).1 hk (P.new t)
  simp only [readEntry, valueOpens, hs, hfields, Option.map_some, addMessage_eq hs hr, orAbort, he]
  refine (readEntryValue_agrees hrec indent hv (splitKv s).2
    { st with msg := clearValue P .cpp vf e.1, hits := st.hits + 1 } hl stack).bind fun r _ => ?_
  exact agrees_here { r with msg := _ } stack

/-- Where an element stands below a singular field, an accessor of a repeated one is called. -/
theorem readItem_strayItem {rec : Read n} (indent i : Nat) {f : Field n} {s : List Char}
    (st : ReadState) (h : StrayItem F f s) :
    readItem F P .cpp rec indent f i s st = .error .accessor := by
  obtain ⟨single, hm | ⟨hne, hflow, hx⟩⟩ := h
  · obtain ⟨t, hs⟩ := Option.isSome_iff_exists.mp hm
    simp [readItem, hs, addValue, single, orAbort, bind, Except.bind]
  · obtain ⟨x, hx⟩ := Option.isSome_iff_exists.mp hx
    have scalar : f.type.messageType? = none := by
      cases hty : f.type <;> simp_all [parseScalar, CppType.messageType?]
    simp [readItem, scalar, hne, hflow, setScalar, storeScalar, hx, addValue, single, orAbort,
      Except.map]

theorem readItem_strayMapping {rec : Read n} (indent i : Nat) {f : Field n} {s : List Char}
    (st : ReadState) (h : StrayMapping P indent f s st.lines) :
    readItem F P .cpp rec indent f i s st = .error .accessor := by
  obtain ⟨t, j, g, child, rest, hs, hne, hflow, hfind, hv, hg, hm, hlines, hc, hq⟩ := h
  obtain ⟨v, hgv⟩ := Option.isSome_iff_exists.mp hm
  have first : ∀ item : ReadState, item.lines = child :: rest →
      firstEntry F P .cpp rec indent t (itemText s) item = .error .accessor := by
    intro item hitem
    have deep : ¬ child.indent ≤ indent + 2 := by omega
    simp [firstEntry, hne, hflow, hfind, hv, hitem, deep, hq, hgv, readSub, Pool.mutableMessage,
      hg, orAbort, bind, Except.bind]
  by_cases hr : f.repeated
  · simp only [readItem, reduceCtorEq, false_and, ↓reduceIte, hs, addMessage_eq hs hr, orAbort]
    simp only [bind, Except.bind, first { st with msg := P.new t, hits := st.hits + 1 } hlines]
  · exact readItem_strayItem indent i st
      ⟨by simpa using hr, .inl (by simp [CppType.isMessage, hs])⟩

theorem ReadPlace.misplaced_iff {b : Block n} {stack : List (Block n)} {l : Ln} {lines : List Ln} :
    (⟨l :: lines, b :: stack⟩ : ReadPlace n).Misplaced F P ↔ b.holds l ∧
      ∃ indent i f, b = .sequence indent i f ∧
        (StrayItem F f l.s ∨ StrayMapping P indent f l.s lines) := by
  constructor
  · rintro ⟨indent, i, f, stack', l', lines', hp, hi, hq, stray⟩
    simp only [ReadPlace.mk.injEq, List.cons.injEq] at hp
    obtain ⟨⟨rfl, rfl⟩, rfl, rfl⟩ := hp
    exact ⟨by simp [Block.holds, Block.indent, hi, hq], indent, i, f, rfl, stray⟩
  · rintro ⟨hb, indent, i, f, rfl, stray⟩
    obtain ⟨hi, hq⟩ := Bool.and_eq_true_iff.mp hb
    exact ⟨indent, i, f, stack, l, lines, rfl, of_decide_eq_true hi, hq, stray⟩

/-- What a block does with a line that it holds. -/
theorem line_agrees {bound : Nat} {rec : Read n} (hrec : Follows F P bound rec) {b : Block n}
    (fits : b.Fits P) {l : Ln} (st : ReadState) (hl : st.lines.length < bound)
    (placed : ∀ indent i f, b = .sequence indent i f →
      ¬ (StrayItem F f l.s ∨ StrayMapping P indent f l.s st.lines)) (stack : List (Block n)) :
    Agrees F P ⟨(b.opens P l.s st.lines).2, (b.opens P l.s st.lines).1 ++ stack⟩ stack
      (readLine F P .cpp rec b l.s st) := by
  cases b with
  | mapping indent t => exact applyEntry_agrees hrec indent t l.s st hl stack
  | sequence indent i f =>
    have here := not_or.mp (placed indent i f rfl)
    exact readItem_agrees hrec indent i f l.s st hl here.1 here.2 stack
  | map indent i f => exact readEntry_agrees hrec indent i fits.1 fits.2 l.s st hl stack

/-- One more round of the loops. -/
theorem readStep_follows {bound : Nat} {rec : Read n} (hrec : Follows F P bound rec) :
    Follows F P (bound + 1) (readStep F P .cpp rec) := by
  intro b st stack fits hl
  unfold readStep
  cases hlines : st.lines with
  | nil =>
    have empty : ¬ (⟨[], b :: stack⟩ : ReadPlace n).Misplaced F P := by
      rintro ⟨_, _, _, _, _, _, hp, -⟩
      simp at hp
    have here := agrees_here (F := F) (P := P) st stack
    rw [hlines] at here
    exact here.next empty rfl le_rfl
  | cons l lines =>
    rw [hlines, List.length_cons] at hl
    by_cases hb : b.holds l
    · simp only [hb, ↓reduceIte]
      by_cases hp : (⟨l :: lines, b :: stack⟩ : ReadPlace n).Misplaced F P
      · -- the accessor of the misplaced line stops the process
        obtain ⟨-, indent, i, f, rfl, stray⟩ := ReadPlace.misplaced_iff.mp hp
        have stop : readLine F P .cpp rec (.sequence indent i f) l.s { st with lines := lines } =
            .error .accessor := by
          rcases stray with item | mapping
          · exact readItem_strayItem indent i _ item
          · exact readItem_strayMapping indent i { st with lines := lines } mapping
        rw [stop]
        exact ⟨rfl, fun safe => (ReadPlace.safe_iff.mp safe).1 hp⟩
      · have placed : ∀ indent i f, b = .sequence indent i f →
            ¬ (StrayItem F f l.s ∨ StrayMapping P indent f l.s lines) :=
          fun indent i f he stray => hp (ReadPlace.misplaced_iff.mpr ⟨hb, indent, i, f, he, stray⟩)
        have line := line_agrees hrec fits { st with lines := lines } (Nat.lt_of_succ_lt_succ hl)
          placed (b :: stack)
        have loop := line.bind fun st' hst' => hrec b st' stack fits
          ((hst'.trans (opens_suffix P b l.s lines).length_le).trans_lt (Nat.lt_of_succ_lt_succ hl))
        refine loop.next hp (by simp [ReadPlace.next, hb]) ?_
        exact (opens_suffix P b l.s lines).length_le.trans (by simp)
    · simp only [hb, Bool.false_eq_true, ↓reduceIte]
      have kept : ¬ (⟨l :: lines, b :: stack⟩ : ReadPlace n).Misplaced F P :=
        fun hp => hb (ReadPlace.misplaced_iff.mp hp).1
      have here := agrees_here (F := F) (P := P) st stack
      rw [hlines] at here
      exact here.next kept (by simp [ReadPlace.next, hb]) le_rfl

theorem read_follows (bound : Nat) : Follows F P bound (read F P .cpp bound) := by
  induction bound with
  | zero => exact fun b st stack _ hl => absurd hl (Nat.not_lt_zero _)
  | succ bound ih => exact readStep_follows ih

theorem read_agrees (t : Fin n) (lines : List Ln) (m : Slots) :
    Agrees F P ⟨lines, [.mapping 0 t]⟩ [] (read F P .cpp (lines.length + 1) (.mapping 0 t) ⟨lines, m, 0⟩) :=
  read_follows (lines.length + 1) (.mapping 0 t) ⟨lines, m, 0⟩ [] trivial (Nat.lt_succ_self _)

/-- The line of an empty message names no field. -/
theorem next_emptyMapping (t : Fin n) :
    (⟨[⟨0, ['{', '}']⟩], [.mapping 0 t]⟩ : ReadPlace n).next P = some ⟨[], [.mapping 0 t]⟩ := by
  have unknown : (P.desc t).find? ['{', '}'] = none := P.find?_of_not_isName t (by decide)
  have key : splitKv ['{', '}'] = (['{', '}'], []) := by decide
  have text : unquote ['{', '}'] = ['{', '}'] := by decide
  have item : isSeqItem ['{', '}'] = false := by decide
  simp [ReadPlace.next, Block.holds, Block.indent, item, Block.opens, entryOpens, key, text,
    unknown, skipBlock]

/-- The document of an empty message has no misplaced line. -/
theorem safe_emptyMapping (t : Fin n) :
    (⟨[⟨0, ['{', '}']⟩], [.mapping 0 t]⟩ : ReadPlace n).Safe F P := by
  have below : (⟨[], [.mapping 0 t]⟩ : ReadPlace n).Safe F P := by
    have closed := read_agrees (F := F) (P := P) t [] []
    exact closed.2.mpr (ReadPlace.safe_nil [])
  refine ReadPlace.safe_iff.mpr ⟨fun hp => ?_, fun q hq => ?_⟩
  · obtain ⟨-, _, _, _, hb, -⟩ := ReadPlace.misplaced_iff.mp hp
    simp at hb
  · rwa [← Option.some.inj ((next_emptyMapping t).symm.trans hq)]

/-- The C++ reader calls no accessor on a field of another label or type exactly when every line
of the document stands where its field can take it. -/
theorem fromYaml_accessors_iff (F : FloatText) (P : Pool n) (t : Fin n) (text : List Char)
    (m : Slots) : fromYaml F P .cpp t text m ≠ .error .accessor ↔ WellPlaced F P t text := by
  unfold fromYaml WellPlaced
  by_cases hempty : tokenize text = [⟨0, ['{', '}']⟩]
  · simp [hempty, safe_emptyMapping]
  · simp only [hempty, ↓reduceIte]
    have agrees := read_agrees (F := F) (P := P) t (tokenize text) m
    cases hr : read F P .cpp ((tokenize text).length + 1) (.mapping 0 t) ⟨tokenize text, m, 0⟩ with
    | error e =>
      rw [hr] at agrees
      simp [Except.map, agrees.1, agrees.2]
    | ok st =>
      rw [hr] at agrees
      simp [Except.map, agrees.2, ReadPlace.safe_nil]

/-- A message with a key and a name. -/
def userPool : Pool 1 where
  desc _ :=
    { name := ['u', 's', 'e', 'r', 's']
      fields := [{ name := ['H', 'A', 'R', 'P', 'I', 'A', '_', 'I', 'D'], type := .int64 },
        { name := ['n', 'a', 'm', 'e'], type := .string }] }
  names_word := by decide
  names_nodup := by decide
  presence_repeated := by decide
  presence_message := by decide
  entry := by decide
  map_repeated := by decide

/-- A list below the name: `AddString` is called on a singular field. -/
theorem fromYaml_strayName :
    ¬ ∀ (n : Nat) (P : Pool n) (t : Fin n) (text : List Char) (m : Slots),
      fromYaml zeroFloats P .cpp t text m ≠ .error .accessor := by
  intro claim
  refine claim 1 userPool 0 ['n', 'a', 'm', 'e', ':', '\n', ' ', ' ', '-', ' ', 'x', '\n']
    (userPool.new 0) ?_
  rfl

end Harpia
