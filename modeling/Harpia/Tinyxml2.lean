import Harpia.XmlRoundTrip

namespace Harpia

open Text Markup

namespace Tinyxml2

def isWhiteSpace (c : Char) : Bool :=
  c = ' ' || c = '\t' || c = '\n' || c = '\x0b' || c = '\x0c' || c = '\r'

def skipWhiteSpace (p : List Char) : List Char := p.dropWhile isWhiteSpace

def isNameStartChar (c : Char) : Bool := c.toNat ≥ 128 || c.isAlpha || c = ':' || c = '_'

def isNameChar (c : Char) : Bool := isNameStartChar c || c.isDigit || c = '.' || c = '-'

/-- `StrPair::ParseName`. -/
def parseName : List Char → Option (List Char × List Char)
  | [] => none
  | c :: cs =>
    if isNameStartChar c then some (c :: cs.takeWhile isNameChar, cs.dropWhile isNameChar) else none

/-- `StrPair::GetStr`, for the text of an element. Line ends become line feeds, entities the
characters that they stand for. -/
def getStr : List Char → List Char
  | '\r' :: '\n' :: cs => '\n' :: getStr cs
  | '\r' :: cs => '\n' :: getStr cs
  | '\n' :: '\r' :: cs => '\n' :: getStr cs
  | '&' :: 'q' :: 'u' :: 'o' :: 't' :: ';' :: cs => '"' :: getStr cs
  | '&' :: 'a' :: 'm' :: 'p' :: ';' :: cs => '&' :: getStr cs
  | '&' :: 'a' :: 'p' :: 'o' :: 's' :: ';' :: cs => '\'' :: getStr cs
  | '&' :: 'l' :: 't' :: ';' :: cs => '<' :: getStr cs
  | '&' :: 'g' :: 't' :: ';' :: cs => '>' :: getStr cs
  | c :: cs => c :: getStr cs
  | [] => []

inductive ClosingType
  | OPEN
  | CLOSED
  | CLOSING
deriving DecidableEq

/-- `XMLElement::ParseAttributes`, where there are none. -/
def parseAttributes (p : List Char) (closing : ClosingType) : Option (ClosingType × List Char) :=
  match skipWhiteSpace p with
  | '>' :: rest => some (closing, rest)
  | '/' :: '>' :: rest => some (.CLOSED, rest)
  | _ => none

/-- `XMLElement::ParseDeep`, up to the children. -/
def parseTag (p : List Char) : Option (ClosingType × List Char × List Char) :=
  let p := skipWhiteSpace p
  let start := if p.head? = some '/' then (ClosingType.CLOSING, p.drop 1) else (.OPEN, p)
  (parseName start.2).bind fun name =>
    (parseAttributes name.2 start.1).map fun tag => (tag.1, name.1, tag.2)

def maxElementDepth : Nat := 500

/-- `XMLNode::ParseDeep`: the children of a node, with the end tag that is met and what follows it.
White space before a tag is no text. -/
def parseDeep : Nat → Nat → List Char → Option (List Item × Option (List Char × List Char))
  | 0, _, _ => none
  | bound + 1, depth, p =>
    match skipWhiteSpace p with
    | [] => some ([], none)
    | '<' :: tag =>
      (parseTag tag).bind fun tag =>
        match tag with
        | (.CLOSING, name, rest) => some ([], some (name, rest))
        | (.CLOSED, name, rest) =>
          (parseDeep bound depth rest).map fun after => (.element name [] :: after.1, after.2)
        | (.OPEN, name, rest) =>
          if depth + 1 = maxElementDepth then none
          else
            (parseDeep bound (depth + 1) rest).bind fun inner =>
              inner.2.bind fun endTag =>
                if endTag.1 = name then
                  (parseDeep bound depth endTag.2).map fun after =>
                    (.element name inner.1 :: after.1, after.2)
                else none
    | _ =>
      -- `Identify` backs up: the white space before the first character counts
      let text := p.takeWhile (· ≠ '<')
      let rest := p.dropWhile (· ≠ '<')
      if rest = [] then none
      else
        (parseDeep bound depth rest).map fun after =>
          ((getStr text).map Item.char ++ after.1, after.2)

def rootElement : List Item → Option Item
  | .element name content :: _ => some (.element name content)
  | .char _ :: items => rootElement items
  | [] => none

/-- `XMLDocument::Parse`, of a C string, and `RootElement`. The document is a node of its own. -/
def parse (xml : List Char) : Option Item :=
  let p := skipWhiteSpace (xml.takeWhile (· ≠ '\x00'))
  let p := if p.head? = some '\uFEFF' then p.drop 1 else p
  if p = [] then none
  else (parseDeep (p.length + 1) 1 p).bind fun document => rootElement document.1

section Reads

/-- A text that is passed on as it stands in an element. -/
def keptText (s : List Char) : Bool :=
  noReturn s && decide ('\x00' ∉ s) && (decide (s = []) || s.any fun c => !isWhiteSpace c)

theorem keptText_iff {s : List Char} :
    keptText s ↔ '\r' ∉ s ∧ '\x00' ∉ s ∧ (s = [] ∨ ∃ c ∈ s, isWhiteSpace c = false) := by
  simp [keptText, noReturn, and_assoc]

theorem keptText_nil : keptText [] := by decide

theorem isWhiteSpace_eq_false_of_isWord {c : Char} (h : isWord c) : isWhiteSpace c = false := by
  have blank := isSpace_eq_false_of_isWord h
  simp only [isSpace, Bool.or_eq_false_iff] at blank
  simp only [isWhiteSpace, Bool.or_eq_false_iff]
  tauto

theorem skipWhiteSpace_cons {c : Char} (h : isWhiteSpace c = false) (cs : List Char) :
    skipWhiteSpace (c :: cs) = c :: cs := by
  simp [skipWhiteSpace, h]

/-- The name of an element is found whole. -/
theorem parseName_append {name : List Char} (h : isXmlName name) (rest : List Char) :
    parseName (name ++ '>' :: rest) = some (name, '>' :: rest) := by
  cases name with
  | nil => simp [isXmlName] at h
  | cons c cs =>
    simp only [isXmlName, Bool.and_eq_true] at h
    have start : isNameStartChar c := by
      have first := h.1
      simp only [isNameStartChar, Bool.or_eq_true, decide_eq_true_eq] at first ⊢
      tauto
    have chars : ∀ d ∈ cs, isNameChar d := by
      intro d hd
      have word := List.all_eq_true.mp h.2 d hd
      simp only [isWord, Char.isAlphanum, isNameChar, isNameStartChar, Bool.or_eq_true,
        decide_eq_true_eq] at word ⊢
      tauto
    have stop : ∀ d ∈ ('>' :: rest).head?, isNameChar d = false := by
      simp only [List.head?_cons, Option.mem_some_iff, forall_eq']
      decide
    obtain ⟨taken, dropped⟩ := span_append chars stop
    rw [List.cons_append, parseName, if_pos start, taken, dropped]

theorem parseTag_open {name : List Char} (h : isXmlName name) (rest : List Char) :
    parseTag (name ++ '>' :: rest) = some (.OPEN, name, rest) := by
  have found := parseName_append h rest
  obtain ⟨⟨c, cs, rfl⟩, word⟩ := isWord_of_isXmlName h
  have first : isWord c := word c List.mem_cons_self
  have noSlash : c ≠ '/' := ne_of_isWord first (by decide)
  have skipped := skipWhiteSpace_cons (isWhiteSpace_eq_false_of_isWord first) (cs ++ '>' :: rest)
  rw [List.cons_append] at found ⊢
  simp only [parseTag, skipped, List.head?_cons, Option.some.injEq, noSlash, ↓reduceIte, found,
    Option.bind_some]
  rfl

theorem parseTag_closing {name : List Char} (h : isXmlName name) (rest : List Char) :
    parseTag ('/' :: name ++ '>' :: rest) = some (.CLOSING, name, rest) := by
  have skipped := skipWhiteSpace_cons (c := '/') (by decide) (name ++ '>' :: rest)
  rw [List.cons_append]
  simp only [parseTag, skipped, List.head?_cons, ↓reduceIte, List.drop_one, List.tail_cons,
    parseName_append h, Option.bind_some]
  rfl

theorem parseDeep_tag (bound depth : Nat) (tag : List Char) :
    parseDeep (bound + 1) depth ('<' :: tag) = (parseTag tag).bind fun tag =>
      match tag with
      | (.CLOSING, name, rest) => some ([], some (name, rest))
      | (.CLOSED, name, rest) =>
        (parseDeep bound depth rest).map fun after => (.element name [] :: after.1, after.2)
      | (.OPEN, name, rest) =>
        if depth + 1 = maxElementDepth then none
        else
          (parseDeep bound (depth + 1) rest).bind fun inner =>
            inner.2.bind fun endTag =>
              if endTag.1 = name then
                (parseDeep bound depth endTag.2).map fun after =>
                  (.element name inner.1 :: after.1, after.2)
              else none := by
  rewrite [parseDeep, skipWhiteSpace_cons (by decide)]
  rfl

theorem skipWhiteSpace_append {text rest : List Char} (shown : ∃ c ∈ text, isWhiteSpace c = false) :
    ∃ c cs, skipWhiteSpace (text ++ rest) = c :: cs ∧ c ∈ text := by
  induction text with
  | nil => simp at shown
  | cons d text ih =>
    by_cases white : isWhiteSpace d
    · have later : ∃ c ∈ text, isWhiteSpace c = false := by
        obtain ⟨c, hc, dark⟩ := shown
        rcases List.mem_cons.mp hc with rfl | hc
        · exact absurd (white.symm.trans dark) (by decide)
        · exact ⟨c, hc, dark⟩
      obtain ⟨c, cs, skipped, mem⟩ := ih later
      refine ⟨c, cs, ?_, List.mem_cons_of_mem d mem⟩
      rw [List.cons_append, skipWhiteSpace, List.dropWhile_cons_of_pos white]
      exact skipped
    · exact ⟨d, text ++ rest, skipWhiteSpace_cons (by simpa using white) _, List.mem_cons_self⟩

/-- Characters before a tag are a text, with the white space before them. -/
theorem parseDeep_text {text rest : List Char} (plain : '<' ∉ text)
    (shown : ∃ c ∈ text, isWhiteSpace c = false) (tag : rest.head? = some '<') (bound depth : Nat) :
    parseDeep (bound + 1) depth (text ++ rest) = (parseDeep bound depth rest).map fun after =>
      ((getStr text).map Item.char ++ after.1, after.2) := by
  obtain ⟨c, cs, skipped, mem⟩ := @skipWhiteSpace_append text rest shown
  have other : c ≠ '<' := fun he => plain (he ▸ mem)
  have before : ∀ d ∈ text, decide (d ≠ '<') := fun d hd =>
    decide_eq_true fun he => plain (he ▸ hd)
  have stop : ∀ d ∈ rest.head?, decide (d ≠ '<') = false := by
    rw [tag]
    simp
  obtain ⟨taken, dropped⟩ := span_append before stop
  have some_ : rest ≠ [] := fun none_ => by simp [none_] at tag
  rw [parseDeep, skipped]
  split
  next he => exact absurd he (by simp)
  next he => exact absurd (List.cons.inj he).1 other
  next => simp only [taken, dropped, if_neg some_]

/-- The parser goes no further than here. -/
def Stops (rest : List Char) (stop : Option (List Char × List Char)) : Prop :=
  ∀ bound depth, parseDeep (bound + 1) depth rest = some ([], stop)

theorem stops_nil : Stops [] none := fun _ _ => rfl

theorem stops_endTag {name : List Char} (h : isXmlName name) (rest : List Char) :
    Stops ('<' :: '/' :: name ++ '>' :: rest) (some (name, rest)) := by
  intro bound depth
  have closing := parseTag_closing h rest
  rw [List.cons_append] at closing
  rw [List.cons_append, List.cons_append, parseDeep_tag, closing, Option.bind_some]

theorem getStr_cons {c : Char} {cs : List Char} (noReturn : c ≠ '\r') (noRef : c ≠ '&')
    (single : c = '\n' → ∀ d ∈ cs.head?, d ≠ '\r') : getStr (c :: cs) = c :: getStr cs := by
  rw [getStr.eq_def]
  split <;> simp_all

theorem escape_head_return {s : List Char} (h : '\r' ∉ s) : ∀ d ∈ (escape s).head?, d ≠ '\r' := by
  cases s with
  | nil => simp [escape]
  | cons c s =>
    rw [List.mem_cons, not_or] at h
    rw [escape_cons]
    rcases escapeChar_cases c with ⟨name, he, -⟩ | ⟨he, -⟩
    · simp [he]
    · simpa [he] using Ne.symm h.1

/-- The characters of an escaped text are found again. -/
theorem getStr_escape {s : List Char} (h : '\r' ∉ s) : getStr (escape s) = s := by
  induction s with
  | nil => rfl
  | cons c s ih =>
    rw [List.mem_cons, not_or] at h
    have next := escape_head_return h.2
    rw [escape_cons]
    unfold escapeChar
    split
    case h_6 amp _ _ _ _ =>
      rw [List.singleton_append, getStr_cons (Ne.symm h.1) amp fun _ => next, ih h.2]
    all_goals simp only [List.cons_append, List.nil_append, getStr, ih h.2]

theorem escape_noTag (s : List Char) : '<' ∉ escape s := by
  induction s with
  | nil => simp [escape]
  | cons c s ih =>
    rw [escape_cons, List.mem_append, not_or]
    refine ⟨?_, ih⟩
    unfold escapeChar
    split
    case h_6 _ lt _ _ _ => simpa using Ne.symm lt
    all_goals decide

theorem escape_shown {s : List Char} (h : ∃ c ∈ s, isWhiteSpace c = false) :
    ∃ c ∈ escape s, isWhiteSpace c = false := by
  obtain ⟨c, hc, dark⟩ := h
  have shown : ∃ d ∈ escapeChar c, isWhiteSpace d = false := by
    unfold escapeChar
    split
    case h_6 => exact ⟨c, List.mem_singleton_self c, dark⟩
    all_goals exact ⟨'&', List.mem_cons_self, by decide⟩
  obtain ⟨d, hd, dark⟩ := shown
  exact ⟨d, List.mem_flatMap.mpr ⟨c, hc, hd⟩, dark⟩

/-- The text within an element, up to the end tag. -/
theorem parseDeep_kept {s : List Char} (kept : keptText s) {name : List Char} (h : isXmlName name)
    (rest : List Char) (bound depth : Nat) :
    parseDeep (bound + 2) depth (escape s ++ '<' :: '/' :: name ++ '>' :: rest) =
      some (s.map .char, some (name, rest)) := by
  obtain ⟨clean, -, empty | shown⟩ := keptText_iff.mp kept
  · rw [empty]
    exact stops_endTag h rest _ _
  · rw [List.append_assoc, parseDeep_text (escape_noTag s) (escape_shown shown) rfl,
      stops_endTag h rest, Option.map_some, getStr_escape clean, List.append_nil]

/-- A row of elements is found as it was written, unless elements are nested too deep. -/
theorem parseDeep_written {text : List Char} {items : List Item} (h : Written keptText text items) :
    ∀ bound depth rest stop, Stops rest stop → depth < maxElementDepth → text.length < bound →
      parseDeep bound depth (text ++ rest) =
        if depth + depthAll items < maxElementDepth then some (items, stop) else none := by
  induction h with
  | nil =>
    intro bound depth rest stop stops shallow long
    obtain ⟨bound, rfl⟩ : ∃ b, bound = b + 1 := ⟨bound - 1, by simp at long; omega⟩
    rw [List.nil_append, stops, depthAll, Nat.add_zero, if_pos shallow]
  | @text name s cs items named kept _ ih =>
    intro bound depth rest stop stops shallow long
    simp only [tagged, List.length_append, List.length_cons, List.length_nil] at long
    obtain ⟨bound, rfl⟩ : ∃ b, bound = b + 3 := ⟨bound - 3, by omega⟩
    have shape : tagged name (escape s) ++ cs ++ rest =
        '<' :: (name ++ '>' :: (escape s ++ '<' :: '/' :: name ++ '>' :: (cs ++ rest))) := by
      simp [tagged]
    have same : normalizeEnds s = s := normalizeEnds_eq_self (keptText_iff.mp kept).1
    have depth_ : depthAll (.element name (s.map Item.char) :: items) = max 1 (depthAll items) := by
      rw [depthAll, depthOf, depthAll_chars]
    have after := ih (bound + 2) depth rest stop stops shallow (by omega)
    rw [shape, parseDeep_tag, parseTag_open named, Option.bind_some, same, depth_]
    simp only [parseDeep_kept kept named, Option.bind_some, ↓reduceIte, after]
    by_cases last : depth + 1 = maxElementDepth
    · rw [if_pos last, if_neg (by omega)]
    · rw [if_neg last]
      by_cases fits : depth + depthAll items < maxElementDepth
      · rw [if_pos fits, if_pos (by omega), Option.map_some]
      · rw [if_neg fits, if_neg (by omega), Option.map_none]
  | @elements name body cs inner items named _ _ ihBody ih =>
    intro bound depth rest stop stops shallow long
    simp only [tagged, List.length_append, List.length_cons, List.length_nil] at long
    obtain ⟨bound, rfl⟩ : ∃ b, bound = b + 1 := ⟨bound - 1, by omega⟩
    have shape : tagged name body ++ cs ++ rest =
        '<' :: (name ++ '>' :: (body ++ ('<' :: '/' :: name ++ '>' :: (cs ++ rest)))) := by
      simp [tagged]
    have depth_ : depthAll (.element name inner :: items) =
        max (depthAll inner + 1) (depthAll items) := by rw [depthAll, depthOf]
    rw [shape, parseDeep_tag, parseTag_open named, Option.bind_some, depth_]
    by_cases last : depth + 1 = maxElementDepth
    · simp only [last, ↓reduceIte]
      rw [if_neg (by omega)]
    · have within := ihBody bound (depth + 1) _ _ (stops_endTag named (cs ++ rest)) (by omega)
        (by omega)
      have after := ih bound depth rest stop stops shallow (by omega)
      simp only [last, ↓reduceIte, within]
      by_cases deep : depth + 1 + depthAll inner < maxElementDepth
      · simp only [deep, ↓reduceIte, Option.bind_some, after]
        by_cases fits : depth + depthAll items < maxElementDepth
        · rw [if_pos fits, if_pos (by omega), Option.map_some]
        · rw [if_neg fits, if_neg (by omega), Option.map_none]
      · simp only [deep, ↓reduceIte, Option.bind_none]
        rw [if_neg (by omega)]

theorem escape_noNul {s : List Char} (h : '\x00' ∉ s) : '\x00' ∉ escape s := by
  intro mem
  obtain ⟨c, hc, mem⟩ := List.mem_flatMap.mp mem
  rcases escapeChar_cases c with ⟨name, he, known, -⟩ | ⟨he, -⟩
  · unfold escapeChar at mem
    split at mem
    case h_6 => exact h (List.mem_singleton.mp mem ▸ hc)
    all_goals exact absurd mem (by decide)
  · rw [he, List.mem_singleton] at mem
    exact h (mem ▸ hc)

theorem xmlName_noNul {name : List Char} (h : isXmlName name) : '\x00' ∉ name := fun hn =>
  absurd ((isWord_of_isXmlName h).2 '\x00' hn) (by decide)

theorem written_noNul {text : List Char} {items : List Item} (h : Written keptText text items) :
    '\x00' ∉ text := by
  have nul : ∀ d ∈ ['<', '/', '>'], '\x00' ≠ d := by simp
  induction h with
  | nil => simp
  | text named kept _ ih =>
    have name := xmlName_noNul named
    have body := escape_noNul (keptText_iff.mp kept).2.1
    simp [tagged, name, body, ih, nul]
  | elements named _ _ ihBody ih =>
    have name := xmlName_noNul named
    simp [tagged, name, ihBody, ih, nul]

/-- The root element of a document is found as it was written, unless elements are nested too
deep. -/
theorem parse_written {name body : List Char} {items : List Item} (named : isXmlName name)
    (h : Written keptText body items) : parse (tagged name body) =
      if depthAll items + 2 < maxElementDepth then some (.element name items) else none := by
  have document : Written keptText (tagged name body) [.element name items] := by
    have one := Written.elements named h .nil
    rwa [List.append_nil] at one
  have whole : (tagged name body).takeWhile (fun c => decide (c ≠ '\x00')) = tagged name body := by
    refine List.takeWhile_eq_self_iff.mpr fun c hc => decide_eq_true fun he => ?_
    exact written_noNul document (he ▸ hc)
  have start : ∃ cs, tagged name body = '<' :: cs := ⟨_, rfl⟩
  obtain ⟨cs, cons⟩ := start
  have found := parseDeep_written document ((tagged name body).length + 1) 1 [] none stops_nil (by decide)
    (by omega)
  have deep : depthAll [.element name items] = depthAll items + 1 := by
    rw [depthAll, depthOf, depthAll, Nat.max_zero]
  rw [List.append_nil, deep, cons] at found
  rw [parse, whole, cons, skipWhiteSpace_cons (by decide)]
  simp only [List.head?_cons, Option.some.injEq, Char.reduceEq, ↓reduceIte, List.cons_ne_nil, found]
  by_cases fits : depthAll items + 2 < maxElementDepth
  · rw [if_pos fits, if_pos (by omega), Option.bind_some, rootElement]
  · rw [if_neg fits, if_neg (by omega), Option.bind_none]

theorem getStr_clean (text : List Char) : '\r' ∉ getStr text := by
  induction text using getStr.induct <;> simp_all [getStr, eq_comm]

theorem getStr_noNul {text : List Char} (h : '\x00' ∉ text) : '\x00' ∉ getStr text := by
  induction text using getStr.induct <;> simp_all [getStr]

theorem getStr_shown {text : List Char} (h : text.any fun c => !isWhiteSpace c) :
    (getStr text).any fun c => !isWhiteSpace c := by
  have feeds : isWhiteSpace '\r' ∧ isWhiteSpace '\n' := by decide
  have signs : isWhiteSpace '"' = false ∧ isWhiteSpace '&' = false ∧ isWhiteSpace '\'' = false ∧
      isWhiteSpace '<' = false ∧ isWhiteSpace '>' = false := by decide
  induction text using getStr.induct <;> simp_all [getStr, -List.any_eq_true]
  grind

theorem parseName_suffix {p : List Char} {found : List Char × List Char} (h : parseName p = some found) :
    found.2 <:+ p := by
  cases p with
  | nil => simp [parseName] at h
  | cons c cs =>
    rw [parseName] at h
    split at h
    · rw [← Option.some.inj h]
      exact (List.dropWhile_suffix _).trans (List.suffix_cons c cs)
    · simp at h

theorem parseAttributes_suffix {p : List Char} {closing : ClosingType}
    {found : ClosingType × List Char} (h : parseAttributes p closing = some found) : found.2 <:+ p := by
  have skipped : skipWhiteSpace p <:+ p := List.dropWhile_suffix _
  unfold parseAttributes at h
  split at h
  next rest he =>
    rw [← Option.some.inj h]
    exact (List.suffix_cons '>' rest).trans (he ▸ skipped)
  next rest he =>
    rw [← Option.some.inj h]
    exact ((List.suffix_cons '>' rest).trans (List.suffix_cons '/' _)).trans (he ▸ skipped)
  next => simp at h

theorem parseTag_suffix {p : List Char} {found : ClosingType × List Char × List Char}
    (h : parseTag p = some found) : found.2.2 <:+ p := by
  obtain ⟨name, hname, h⟩ := Option.bind_eq_some_iff.mp h
  obtain ⟨tag, htag, rfl⟩ := Option.map_eq_some_iff.mp h
  refine ((parseAttributes_suffix htag).trans (parseName_suffix hname)).trans ?_
  have skipped : skipWhiteSpace p <:+ p := List.dropWhile_suffix _
  split
  · exact (List.drop_suffix 1 _).trans skipped
  · exact skipped

/-- What is known of the items that are found, wherever the parser starts. -/
structure Sifted (p : List Char) (found : List Item × Option (List Char × List Char)) : Prop where
  lead : keptText (leadingText found.1)
  within : leadsAll keptText found.1
  tag : p.head? = some '<' → leadingText found.1 = []
  rest : ∀ endTag, found.2 = some endTag → '\x00' ∉ endTag.2

theorem Sifted.element {p rest name : List Char} {inner : List Item}
    {after : List Item × Option (List Char × List Char)} (h : Sifted rest after)
    (lead : keptText (leadingText inner)) (within : leadsAll keptText inner) :
    Sifted p (.element name inner :: after.1, after.2) :=
  ⟨keptText_nil, ⟨⟨lead, within⟩, h.within⟩, fun _ => rfl, h.rest⟩

theorem leadingText_append (s : List Char) (items : List Item) :
    leadingText (s.map Item.char ++ items) = s ++ leadingText items := by
  induction s with
  | nil => rfl
  | cons c s ih => rw [List.map_cons, List.cons_append, leadingText, ih, List.cons_append]

theorem leadsAll_append_chars {p : List Char → Bool} {s : List Char} {items : List Item}
    (h : leadsAll p items) : leadsAll p (s.map Item.char ++ items) := by
  induction s with
  | nil => exact h
  | cons c s ih => exact ⟨trivial, ih⟩

theorem keptText_getStr {text : List Char} (nul : '\x00' ∉ text)
    (shown : ∃ c ∈ text, isWhiteSpace c = false) : keptText (getStr text) := by
  have some_ : text.any fun c => !isWhiteSpace c := by simpa using shown
  refine keptText_iff.mpr ⟨getStr_clean text, getStr_noNul nul, .inr ?_⟩
  simpa using getStr_shown some_

theorem head?_dropWhile_tag {p : List Char} (h : (p.dropWhile fun c => decide (c ≠ '<')) ≠ []) :
    (p.dropWhile fun c => decide (c ≠ '<')).head? = some '<' := by
  have stop := List.head?_dropWhile_not (fun c => decide (c ≠ '<')) p
  cases hd : p.dropWhile fun c => decide (c ≠ '<') with
  | nil => exact absurd hd h
  | cons c cs =>
    rw [hd] at stop
    simpa using stop

theorem skipWhiteSpace_tag {p : List Char} (h : p.head? = some '<') :
    skipWhiteSpace p = '<' :: p.tail := by
  cases p with
  | nil => simp at h
  | cons c cs =>
    cases Option.some.inj h
    exact skipWhiteSpace_cons (by decide) cs

/-- A text that the parser finds has more than white space in it. -/
theorem shown_of_text {p : List Char} (notEnd : skipWhiteSpace p ≠ [])
    (notTag : ∀ tag, skipWhiteSpace p ≠ '<' :: tag) :
    ∃ c ∈ p.takeWhile fun c => decide (c ≠ '<'), isWhiteSpace c = false := by
  cases hs : skipWhiteSpace p with
  | nil => exact absurd hs notEnd
  | cons c cs =>
    have other : c ≠ '<' := fun he => notTag cs (by rw [hs, he])
    have stop := List.head?_dropWhile_not isWhiteSpace p
    have parts : p.takeWhile isWhiteSpace ++ c :: cs = p := by
      rw [← hs]
      exact List.takeWhile_append_dropWhile
    have before : ∀ d ∈ p.takeWhile isWhiteSpace, decide (d ≠ '<') := by
      intro d hd
      refine decide_eq_true fun he => ?_
      have white := List.mem_takeWhile_imp hd
      rw [he] at white
      exact absurd white (by decide)
    have mem : c ∈ p.takeWhile fun c => decide (c ≠ '<') := by
      rw [← parts, List.takeWhile_append_of_pos before]
      simp [other]
    rw [show p.dropWhile isWhiteSpace = c :: cs from hs] at stop
    exact ⟨c, mem, stop⟩

/-- Every text that the parser passes on is of the kind that it keeps. -/
theorem parseDeep_sifted {bound depth : Nat} {p : List Char}
    {found : List Item × Option (List Char × List Char)} (h : parseDeep bound depth p = some found)
    (nul : '\x00' ∉ p) : Sifted p found := by
  have clear : ∀ {a b : List Char}, a <:+ b → '\x00' ∉ b → '\x00' ∉ a := fun suffix none_ mem =>
    none_ (suffix.mem mem)
  induction bound generalizing depth p found with
  | zero => simp [parseDeep] at h
  | succ bound ih =>
    have skipped : skipWhiteSpace p <:+ p := List.dropWhile_suffix _
    rw [parseDeep] at h
    split at h
    next =>
      cases Option.some.inj h
      exact ⟨keptText_nil, trivial, fun _ => rfl, by simp⟩
    next tag start =>
      obtain ⟨⟨type, name, rest⟩, htag, h⟩ := Option.bind_eq_some_iff.mp h
      have behind : '\x00' ∉ rest :=
        clear (((parseTag_suffix htag).trans (List.suffix_cons '<' tag)).trans (start ▸ skipped)) nul
      cases type with
      | CLOSING =>
        cases Option.some.inj h
        refine ⟨keptText_nil, trivial, fun _ => rfl, fun endTag he => ?_⟩
        rw [← Option.some.inj he]
        exact behind
      | CLOSED =>
        obtain ⟨after, hafter, rfl⟩ := Option.map_eq_some_iff.mp h
        exact (ih hafter behind).element keptText_nil trivial
      | OPEN =>
        dsimp only at h
        split at h
        · simp at h
        obtain ⟨inner, hinner, h⟩ := Option.bind_eq_some_iff.mp h
        obtain ⟨endTag, hend, h⟩ := Option.bind_eq_some_iff.mp h
        split at h
        · obtain ⟨after, hafter, rfl⟩ := Option.map_eq_some_iff.mp h
          have content := ih hinner behind
          exact (ih hafter (content.rest endTag hend)).element content.lead content.within
        · simp at h
    next notEnd notTag =>
      dsimp only at h
      split at h
      · simp at h
      next some_ =>
        obtain ⟨after, hafter, rfl⟩ := Option.map_eq_some_iff.mp h
        have rest := ih hafter (clear (List.dropWhile_suffix _) nul)
        have own := rest.tag (head?_dropWhile_tag some_)
        have text : leadingText ((getStr (p.takeWhile fun c => decide (c ≠ '<'))).map Item.char ++
            after.1) = getStr (p.takeWhile fun c => decide (c ≠ '<')) := by
          rw [leadingText_append, own, List.append_nil]
        refine ⟨?_, leadsAll_append_chars rest.within, fun start => ?_, rest.rest⟩
        · have quiet : '\x00' ∉ p.takeWhile fun c => decide (c ≠ '<') := fun mem =>
            nul ((List.takeWhile_prefix _).mem mem)
          rw [text]
          exact keptText_getStr quiet (shown_of_text notEnd notTag)
        · exact absurd (skipWhiteSpace_tag start) (notTag _)

/-- The texts of a document are of the kind that the parser keeps, whatever the document is. -/
theorem parse_leads {xml name : List Char} {content : List Item}
    (h : parse xml = some (.element name content)) : leadsAll keptText content := by
  unfold parse at h
  extract_lets start p at h
  split at h
  · simp at h
  obtain ⟨document, hdocument, root⟩ := Option.bind_eq_some_iff.mp h
  have quiet : '\x00' ∉ p := by
    have cut : '\x00' ∉ xml.takeWhile fun c => decide (c ≠ '\x00') := fun mem => by
      simpa using List.mem_takeWhile_imp mem
    have skipped : '\x00' ∉ start := fun mem => cut ((List.dropWhile_suffix _).mem mem)
    intro mem
    unfold p at mem
    split at mem
    · exact skipped (List.mem_of_mem_drop mem)
    · exact skipped mem
  have sifted := leadsAll_iff.mp (parseDeep_sifted hdocument quiet).within
  generalize document.1 = items at root sifted
  induction items with
  | nil => simp [rootElement] at root
  | cons x items ih =>
    obtain ⟨here, below⟩ := List.forall_mem_cons.mp sifted
    cases x with
    | char c => exact ih root below
    | element tag inner =>
      cases Option.some.inj root
      exact here.2

end Reads

end Tinyxml2

section Documents

open Reflection

variable {n : Nat} {F : FloatText} {P : Pool n}

theorem keptText_plain {s : List Char} (h : ∀ c ∈ s, plainChar c) : Tinyxml2.keptText s := by
  have other : ∀ c, plainChar c → c ≠ '\r' ∧ c ≠ '\x00' ∧ Tinyxml2.isWhiteSpace c = false := by
    intro c hc
    rw [plainChar, Bool.or_eq_true, decide_eq_true_eq] at hc
    rcases hc with word | rfl
    · exact ⟨ne_of_isWord word (by decide), ne_of_isWord word (by decide),
        Tinyxml2.isWhiteSpace_eq_false_of_isWord word⟩
    · decide
  refine Tinyxml2.keptText_iff.mpr ⟨fun hr => (other _ (h _ hr)).1 rfl,
    fun hn => (other _ (h _ hn)).2.1 rfl, ?_⟩
  cases s with
  | nil => exact .inl rfl
  | cons c s => exact .inr ⟨c, List.mem_cons_self, (other c (h c List.mem_cons_self)).2.2⟩

mutual

/-- How deep the elements that a message is written as are nested. -/
def nestedAll : List (List Value) → Nat
  | [] => 0
  | slot :: slots => max (nestedItems slot) (nestedAll slots)

def nestedItems : List Value → Nat
  | [] => 0
  | v :: vs => max (nestedValue v) (nestedItems vs)

def nestedValue : Value → Nat
  | .scalar _ => 1
  | .message slots => nestedAll slots + 1

end

variable (F P) in
/-- The element of a value is nested as deep as the value is. -/
def Nested (v : Value) : Prop :=
  ∀ ty name, TypedValue P ty v → depthOf (.element name (valueContent F P ty v)) = nestedValue v

theorem nested_items {f : Field n} {vs : List Value} (ih : ∀ v ∈ vs, Nested F P v)
    (typed : TypedItems P f.type vs) : depthAll (itemElements F P f vs) = nestedItems vs := by
  induction vs with
  | nil => rfl
  | cons v vs rest =>
    obtain ⟨here, below⟩ := List.forall_mem_cons.mp ih
    rw [TypedItems] at typed
    rw [itemElements, depthAll, here f.type f.name typed.1, rest below typed.2, nestedItems]

theorem nested_field {t : Fin n} {f : Field n} {slot : List Value} (ih : ∀ v ∈ slot, Nested F P v)
    (shape : SlotShape P t f slot) (typed : TypedItems P f.type slot) :
    depthAll (fieldElements F P f slot) = nestedItems slot := by
  cases slot with
  | nil =>
    have silent : (f.repeated || f.presence) = true := by
      by_cases hr : f.repeated
      · simp [hr]
      · simp [(shape.unset (by simpa using hr) rfl).1]
    rw [fieldElements, if_pos silent, depthAll, nestedItems]
  | cons v vs =>
    obtain ⟨here, below⟩ := List.forall_mem_cons.mp ih
    rw [TypedItems] at typed
    rw [fieldElements, depthAll, here f.type f.name typed.1, nestedItems]
    by_cases hr : f.repeated
    · rw [if_pos hr, nested_items below typed.2]
    · have alone : vs = [] := by
        have short := shape.single (by simpa using hr)
        simpa using short
      rw [if_neg hr, alone, depthAll, nestedItems]

theorem nested_fields {t : Fin n} {fields : List (Field n)} {slots : List (List Value)}
    (ih : ∀ slot ∈ slots, ∀ v ∈ slot, Nested F P v) (typed : TypedFields P t fields slots) :
    depthAll (elementsOf F P fields slots) = nestedAll slots := by
  induction slots generalizing fields with
  | nil => rw [elementsOf, depthAll, nestedAll]
  | cons slot slots rest =>
    cases fields with
    | nil => exact absurd typed (by simp [TypedFields])
    | cons f fields =>
      obtain ⟨here, below⟩ := List.forall_mem_cons.mp ih
      rw [TypedFields] at typed
      rw [elementsOf, depthAll_append, nested_field here typed.1 typed.2.1, rest below typed.2.2,
        nestedAll]

theorem nested (v : Value) : Nested F P v := by
  induction v using Value.induct with
  | scalar x =>
    intro ty name _
    rw [depthOf, valueContent, textItems, depthAll_chars, nestedValue]
  | message slots ih =>
    intro ty name typed
    obtain ⟨s, hs, fields⟩ := typed_message typed
    simp only [depthOf, valueContent, hs, nestedValue, nested_fields ih fields]

/-- The document of a message is read as its elements, unless they are nested too deep. -/
theorem parse_toXml (named : Named P) {t : Fin n} {m : Slots} (typed : Typed P t m)
    (kept : textsAll Tinyxml2.keptText m) : Tinyxml2.parse (toXml F P t m) =
      if nestedAll m + 2 < Tinyxml2.maxElementDepth then
        some (.element (P.desc t).name (elementsOf F P (P.desc t).fields m))
      else none := by
  have depth : depthAll (elementsOf F P (P.desc t).fields m) = nestedAll m :=
    nested_fields (fun _ _ v _ => nested v) typed
  rw [toXml, Tinyxml2.parse_written (named.types t)
    (written_message (fun _ => keptText_plain) named typed kept), depth]

end Documents

end Harpia
