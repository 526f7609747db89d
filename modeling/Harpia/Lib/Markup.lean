import Harpia.Lib.Text

namespace Markup

open Text

/-- What stands within an element: characters, and elements with a content of their own. -/
inductive Item
  | char (c : Char)
  | element (name : List Char) (content : List Item)

/-- A property of every item, if an element has it whenever all that stands in it does. -/
theorem Item.induct {motive : Item → Prop} (char : ∀ c, motive (.char c))
    (element : ∀ name content, (∀ x ∈ content, motive x) → motive (.element name content))
    (x : Item) : motive x := by
  refine @Item.rec motive (fun items => ∀ x ∈ items, motive x) char element ?_ ?_ x
  · intro x h
    exact absurd h List.not_mem_nil
  · intro x items here below
    exact List.forall_mem_cons.mpr ⟨here, below⟩

mutual

/-- Every character of a content, at any depth, is of one kind. -/
def charsAll (p : Char → Prop) : List Item → Prop
  | [] => True
  | x :: items => charAll p x ∧ charsAll p items

def charAll (p : Char → Prop) : Item → Prop
  | .char c => p c
  | .element _ content => charsAll p content

end

theorem charsAll_iff {p : Char → Prop} {items : List Item} :
    charsAll p items ↔ ∀ x ∈ items, charAll p x := by
  induction items with
  | nil => simp [charsAll]
  | cons x items ih => simp [charsAll, ih]

/-- The characters that a document may have. -/
def isXmlChar (c : Char) : Bool :=
  c = '\t' || c = '\n' || c = '\r' || (0x20 ≤ c.toNat && c.toNat ≤ 0xD7FF) ||
    (0xE000 ≤ c.toNat && c.toNat ≤ 0xFFFD) || 0x10000 ≤ c.toNat

/-- The names of elements, as far as they are ASCII and without `:`, `-` and `.`. -/
def isXmlName : List Char → Bool
  | [] => false
  | c :: cs => (c.isAlpha || c = '_') && cs.all isWord

/-- A processor passes every line end on as a line feed. -/
def normalizeEnds : List Char → List Char
  | [] => []
  | '\r' :: '\n' :: cs => '\n' :: normalizeEnds cs
  | c :: cs => (if c = '\r' then '\n' else c) :: normalizeEnds cs

/-- The entities that need no declaration. -/
def predefined : List Char → Option Char
  | ['a', 'm', 'p'] => some '&'
  | ['l', 't'] => some '<'
  | ['g', 't'] => some '>'
  | ['q', 'u', 'o', 't'] => some '"'
  | ['a', 'p', 'o', 's'] => some '\''
  | _ => none

/-- What text stands for within an element, in documents of characters, predefined entities and
elements without attributes. -/
inductive Content : List Char → List Item → Prop
  | nil : Content [] []
  | char {c : Char} {cs : List Char} {items : List Item} (legal : isXmlChar c)
      (plain : c ≠ '<' ∧ c ≠ '&' ∧ c ≠ '>') (rest : Content cs items) :
      Content (c :: cs) (.char c :: items)
  | entity {name : List Char} {c : Char} {cs : List Char} {items : List Item}
      (known : predefined name = some c) (rest : Content cs items) :
      Content ('&' :: name ++ ';' :: cs) (.char c :: items)
  | element {name body cs : List Char} {inner items : List Item} (named : isXmlName name)
      (content : Content body inner) (rest : Content cs items) :
      Content ('<' :: name ++ '>' :: body ++ '<' :: '/' :: name ++ '>' :: cs)
        (.element name inner :: items)

/-- A parser that finds the root element of every document whose text stands for one. -/
def Conforms (parse : List Char → Option Item) : Prop :=
  ∀ text name content, Content (normalizeEnds text) [.element name content] →
    parse text = some (.element name content)

/-- A conforming parser that passes on no character but those. -/
structure Processor (parse : List Char → Option Item) : Prop where
  conforms : Conforms parse
  legal : ∀ text root, parse text = some root → charAll (fun c => isXmlChar c) root

theorem Content.append {a b : List Char} {xs ys : List Item} (ha : Content a xs)
    (hb : Content b ys) : Content (a ++ b) (xs ++ ys) := by
  induction ha with
  | nil => exact hb
  | char legal plain _ ih => exact .char legal plain ih
  | @entity name c cs items known _ ih =>
    have shape : '&' :: name ++ ';' :: cs ++ b = '&' :: name ++ ';' :: (cs ++ b) := by simp
    rw [shape]
    exact .entity known ih
  | @element name body cs inner items named content _ _ ih =>
    have shape : '<' :: name ++ '>' :: body ++ '<' :: '/' :: name ++ '>' :: cs ++ b =
        '<' :: name ++ '>' :: body ++ '<' :: '/' :: name ++ '>' :: (cs ++ b) := by simp
    rw [shape]
    exact .element named content ih

theorem normalizeEnds_cons {c : Char} (h : c ≠ '\r') (cs : List Char) :
    normalizeEnds (c :: cs) = c :: normalizeEnds cs := by
  rw [normalizeEnds.eq_def]
  split
  next heq => exact absurd heq (by simp)
  next heq => exact absurd (List.cons.inj heq).1 h
  next heq =>
    obtain ⟨rfl, rfl⟩ := List.cons.inj heq
    rw [if_neg h]

theorem normalizeEnds_return {cs : List Char} (h : ∀ c ∈ cs.head?, c ≠ '\n') :
    normalizeEnds ('\r' :: cs) = '\n' :: normalizeEnds cs := by
  rw [normalizeEnds.eq_def]
  split
  next heq => exact absurd heq (by simp)
  next heq =>
    have next := (List.cons.inj heq).2
    rw [next] at h
    exact absurd rfl (h '\n' rfl)
  next heq =>
    obtain ⟨rfl, rfl⟩ := List.cons.inj heq
    rfl

/-- Line ends are found on either side of a place by themselves, unless a line feed follows it. -/
theorem normalizeEnds_append (a : List Char) {b : List Char} (h : ∀ c ∈ b.head?, c ≠ '\n') :
    normalizeEnds (a ++ b) = normalizeEnds a ++ normalizeEnds b := by
  induction a using normalizeEnds.induct with
  | case1 => rfl
  | case2 cs ih =>
    rw [List.cons_append, List.cons_append, normalizeEnds, normalizeEnds, ih, List.cons_append]
  | case3 c cs notPair ih =>
    by_cases hc : c = '\r'
    · subst hc
      have single : ∀ d ∈ cs.head?, d ≠ '\n' := by
        intro d hd he
        cases cs with
        | nil => simp at hd
        | cons e cs =>
          rw [List.head?_cons, Option.mem_some_iff] at hd
          exact notPair cs rfl (by rw [hd, he])
      have after : ∀ d ∈ (cs ++ b).head?, d ≠ '\n' := by
        cases cs with
        | nil => exact h
        | cons e cs => exact single
      rw [List.cons_append, normalizeEnds_return after, normalizeEnds_return single, ih,
        List.cons_append]
    · rw [List.cons_append, normalizeEnds_cons hc, normalizeEnds_cons hc, ih, List.cons_append]

theorem normalizeEnds_eq_self {cs : List Char} (h : '\r' ∉ cs) : normalizeEnds cs = cs := by
  induction cs with
  | nil => rfl
  | cons c cs ih =>
    rw [List.mem_cons, not_or] at h
    rw [normalizeEnds_cons (Ne.symm h.1), ih h.2]

theorem return_notMem_normalizeEnds (cs : List Char) : '\r' ∉ normalizeEnds cs := by
  induction cs using normalizeEnds.induct with
  | case1 => simp [normalizeEnds]
  | case2 cs ih => simpa [normalizeEnds] using ih
  | case3 c cs notPair ih =>
    rw [normalizeEnds.eq_3 c cs notPair, List.mem_cons, not_or]
    refine ⟨?_, ih⟩
    split
    · decide
    next hc => exact Ne.symm hc

/-- Text before the first element of a content, where there is any. -/
def leadingText : List Item → List Char
  | .char c :: items => c :: leadingText items
  | _ => []

theorem leadingText_chars (s : List Char) : leadingText (s.map Item.char) = s := by
  induction s with
  | nil => rfl
  | cons c s ih => rw [List.map_cons, leadingText, ih]

theorem leadingText_all {p : Char → Prop} {items : List Item} (h : charsAll p items) :
    ∀ c ∈ leadingText items, p c := by
  induction items with
  | nil => simp [leadingText]
  | cons x items ih =>
    rw [charsAll] at h
    cases x with
    | char c =>
      rw [charAll] at h
      rw [leadingText]
      exact List.forall_mem_cons.mpr ⟨h.1, ih h.2⟩
    | element name content => simp [leadingText]

mutual

/-- The text that an element starts with is of one kind, at any depth. -/
def leadsAll (p : List Char → Bool) : List Item → Prop
  | [] => True
  | x :: items => leadAll p x ∧ leadsAll p items

def leadAll (p : List Char → Bool) : Item → Prop
  | .char _ => True
  | .element _ content => p (leadingText content) ∧ leadsAll p content

end

theorem leadsAll_iff {p : List Char → Bool} {items : List Item} :
    leadsAll p items ↔ ∀ x ∈ items, leadAll p x := by
  induction items with
  | nil => simp [leadsAll]
  | cons x items ih => simp [leadsAll, ih]

theorem leadsAll_of_chars {q : Char → Prop} {p : List Char → Bool}
    (text : ∀ s : List Char, (∀ c ∈ s, q c) → p s) {items : List Item} (h : charsAll q items) :
    leadsAll p items := by
  have each : ∀ x : Item, charAll q x → leadAll p x := by
    intro x
    induction x using Item.induct with
    | char c => exact fun _ => trivial
    | element name content ih =>
      intro (within : charsAll q content)
      exact ⟨text _ (leadingText_all within),
        leadsAll_iff.mpr fun x hx => ih x hx (charsAll_iff.mp within x hx)⟩
  exact leadsAll_iff.mpr fun x hx => each x (charsAll_iff.mp h x hx)

mutual

/-- How deep elements are nested. -/
def depthAll : List Item → Nat
  | [] => 0
  | x :: items => max (depthOf x) (depthAll items)

def depthOf : Item → Nat
  | .char _ => 0
  | .element _ content => depthAll content + 1

end

theorem depthAll_append (a b : List Item) : depthAll (a ++ b) = max (depthAll a) (depthAll b) := by
  induction a with
  | nil => simp [depthAll]
  | cons x a ih => rw [List.cons_append, depthAll, depthAll, ih, Nat.max_assoc]

theorem depthAll_chars (s : List Char) : depthAll (s.map Item.char) = 0 := by
  induction s with
  | nil => rfl
  | cons c s ih => simp [depthAll, depthOf, ih]

/-- What follows the end tag of an element. -/
def closeTag (name rest : List Char) : Option (List Char) :=
  let tag := '<' :: '/' :: name ++ ['>']
  if tag.isPrefixOf rest then some (rest.drop tag.length) else none

/-- The content that text starts with, up to the end tag or the end of the text. -/
def parseContent : Nat → List Char → Option (List Item × List Char)
  | 0, _ => none
  | _ + 1, [] => some ([], [])
  | bound + 1, c :: cs =>
    if c = '<' then
      if cs.head? = some '/' then some ([], c :: cs)
      else
        let name := cs.takeWhile isWord
        let rest := cs.dropWhile isWord
        if isXmlName name ∧ rest.head? = some '>' then
          (parseContent bound (rest.drop 1)).bind fun inner =>
            (closeTag name inner.2).bind fun rest =>
              (parseContent bound rest).map fun after =>
                (.element name inner.1 :: after.1, after.2)
        else none
    else if c = '&' then
      (predefined (cs.takeWhile (· ≠ ';'))).bind fun d =>
        (parseContent bound ((cs.dropWhile (· ≠ ';')).drop 1)).map fun after =>
          (.char d :: after.1, after.2)
    else if isXmlChar c ∧ c ≠ '>' then
      (parseContent bound cs).map fun after => (.char c :: after.1, after.2)
    else none

/-- A parser for the documents that `Content` speaks of. -/
def parseDocument (text : List Char) : Option Item :=
  match parseContent (text.length + 1) (normalizeEnds text) with
  | some ([.element name content], []) => some (.element name content)
  | _ => none

theorem isWord_of_isXmlName {name : List Char} (h : isXmlName name) :
    (∃ c cs, name = c :: cs) ∧ ∀ c ∈ name, isWord c := by
  cases name with
  | nil => simp [isXmlName] at h
  | cons c cs =>
    refine ⟨⟨c, cs, rfl⟩, ?_⟩
    simp only [isXmlName, Bool.and_eq_true, Bool.or_eq_true, decide_eq_true_eq,
      List.all_eq_true] at h
    refine List.forall_mem_cons.mpr ⟨?_, h.2⟩
    rcases h.1 with alpha | rfl
    · exact isWord_of_isAlpha alpha
    · decide

theorem predefined_noSemicolon {name : List Char} {c : Char} (h : predefined name = some c) :
    ∀ d ∈ name, decide (d ≠ ';') := by
  unfold predefined at h
  split at h <;> first | exact List.all_eq_true.mp (by decide) | exact absurd h (by simp)

theorem closeTag_append (name rest : List Char) :
    closeTag name ('<' :: '/' :: name ++ '>' :: rest) = some rest := by
  have shape : '<' :: '/' :: name ++ '>' :: rest = ('<' :: '/' :: name ++ ['>']) ++ rest := by simp
  have here : ('<' :: '/' :: name ++ ['>']).isPrefixOf (('<' :: '/' :: name ++ ['>']) ++ rest) :=
    List.isPrefixOf_iff_prefix.mpr (List.prefix_append _ _)
  rw [shape, closeTag, if_pos here, List.drop_left]

/-- The end of the text, or an end tag. -/
def Closes (rest : List Char) : Prop := rest = [] ∨ ∃ cs, rest = '<' :: '/' :: cs

theorem parseContent_closes (bound : Nat) {rest : List Char} (h : Closes rest) :
    parseContent (bound + 1) rest = some ([], rest) := by
  rcases h with rfl | ⟨cs, rfl⟩
  · rfl
  · simp [parseContent]

/-- The parser reads every content, and stops behind it. -/
theorem parseContent_append {text : List Char} {items : List Item} (h : Content text items) :
    ∀ bound rest, Closes rest → text.length < bound →
      parseContent bound (text ++ rest) = some (items, rest) := by
  induction h with
  | nil =>
    intro bound rest hr hb
    obtain ⟨bound, rfl⟩ : ∃ b, bound = b + 1 := ⟨bound - 1, by simp at hb; omega⟩
    exact parseContent_closes bound hr
  | @char c cs items legal plain _ ih =>
    intro bound rest hr hb
    rw [List.length_cons] at hb
    obtain ⟨bound, rfl⟩ : ∃ b, bound = b + 1 := ⟨bound - 1, by omega⟩
    obtain ⟨lt, amp, gt⟩ := plain
    rw [List.cons_append, parseContent, if_neg lt, if_neg amp, if_pos ⟨legal, gt⟩,
      ih bound rest hr (by omega), Option.map_some]
  | @entity name c cs items known _ ih =>
    intro bound rest hr hb
    simp only [List.length_append, List.length_cons] at hb
    obtain ⟨bound, rfl⟩ : ∃ b, bound = b + 1 := ⟨bound - 1, by omega⟩
    have shape : '&' :: name ++ ';' :: cs ++ rest = '&' :: (name ++ ';' :: (cs ++ rest)) := by simp
    have stop : ∀ d ∈ (';' :: (cs ++ rest)).head?, decide (d ≠ ';') = false := by simp
    obtain ⟨taken, dropped⟩ := span_append (predefined_noSemicolon known) stop
    rw [shape, parseContent, if_neg (by decide), if_pos rfl, taken, dropped, known,
      Option.bind_some, List.drop_one, List.tail_cons, ih bound rest hr (by omega), Option.map_some]
  | @element name body cs inner items named _ _ ihBody ih =>
    intro bound rest hr hb
    simp only [List.length_append, List.length_cons] at hb
    obtain ⟨bound, rfl⟩ : ∃ b, bound = b + 1 := ⟨bound - 1, by omega⟩
    obtain ⟨⟨d, ds, cons⟩, word⟩ := isWord_of_isXmlName named
    have shape : '<' :: name ++ '>' :: body ++ '<' :: '/' :: name ++ '>' :: cs ++ rest =
        '<' :: (name ++ '>' :: (body ++ ('<' :: '/' :: name ++ '>' :: (cs ++ rest)))) := by simp
    have notEnd : (name ++ '>' :: (body ++ ('<' :: '/' :: name ++ '>' :: (cs ++ rest)))).head? ≠
        some '/' := by
      have first : d ≠ '/' := ne_of_isWord (word d (by simp [cons])) (by decide)
      simp [cons, first]
    have stop : ∀ d ∈ ('>' :: (body ++ ('<' :: '/' :: name ++ '>' :: (cs ++ rest)))).head?,
        isWord d = false := by
      simp only [List.head?_cons, Option.mem_some_iff, forall_eq']
      decide
    obtain ⟨taken, dropped⟩ := span_append word stop
    have within := ihBody bound ('<' :: '/' :: name ++ '>' :: (cs ++ rest)) (.inr ⟨_, rfl⟩)
      (by omega)
    rw [shape, parseContent, if_pos rfl, if_neg notEnd]
    simp only [taken, dropped, named, List.head?_cons, and_self, ↓reduceIte, List.drop_one,
      List.tail_cons, within, Option.bind_some, closeTag_append, ih bound rest hr (by omega),
      Option.map_some]

theorem normalizeEnds_length_le (text : List Char) :
    (normalizeEnds text).length ≤ text.length := by
  induction text using normalizeEnds.induct with
  | case1 => simp [normalizeEnds]
  | case2 cs ih =>
    simp only [normalizeEnds, List.length_cons]
    omega
  | case3 c cs notPair ih =>
    rw [normalizeEnds.eq_3 c cs notPair, List.length_cons, List.length_cons]
    omega

/-- The parser is one that conforms. -/
theorem conforms_parseDocument : Conforms parseDocument := by
  intro text name content h
  have fits := normalizeEnds_length_le text
  have parsed := parseContent_append h (text.length + 1) [] (.inl rfl) (by omega)
  rw [List.append_nil] at parsed
  rw [parseDocument, parsed]

theorem predefined_legal {name : List Char} {c : Char} (h : predefined name = some c) :
    isXmlChar c := by
  unfold predefined at h
  split at h <;> cases h <;> decide

theorem parseContent_legal {bound : Nat} {text : List Char} {found : List Item × List Char}
    (h : parseContent bound text = some found) : charsAll (fun c => isXmlChar c) found.1 := by
  induction bound generalizing text found with
  | zero => simp [parseContent] at h
  | succ bound ih =>
    cases text with
    | nil =>
      cases Option.some.inj h
      trivial
    | cons c cs =>
      rw [parseContent] at h
      split at h
      · split at h
        · cases Option.some.inj h
          trivial
        · dsimp only at h
          split at h
          · obtain ⟨inner, hinner, h⟩ := Option.bind_eq_some_iff.mp h
            obtain ⟨rest, -, h⟩ := Option.bind_eq_some_iff.mp h
            obtain ⟨after, hafter, rfl⟩ := Option.map_eq_some_iff.mp h
            exact ⟨ih hinner, ih hafter⟩
          · simp at h
      · split at h
        · obtain ⟨d, known, h⟩ := Option.bind_eq_some_iff.mp h
          obtain ⟨after, hafter, rfl⟩ := Option.map_eq_some_iff.mp h
          exact ⟨predefined_legal known, ih hafter⟩
        · split at h
          next kind =>
            obtain ⟨after, hafter, rfl⟩ := Option.map_eq_some_iff.mp h
            exact ⟨kind.1, ih hafter⟩
          next => simp at h

theorem processor_parseDocument : Processor parseDocument := by
  refine ⟨conforms_parseDocument, fun text root h => ?_⟩
  unfold parseDocument at h
  split at h
  next name content found =>
    cases Option.some.inj h
    exact (parseContent_legal found).1
  next => simp at h

end Markup
