import Harpia.YamlReader

namespace Harpia

open Text Reflection

variable {n : Nat}

section Typed

variable (P : Pool n)

/-- What a message of a type may hold of a field: a singular field without presence, and both
fields of a map entry, always have a value, and the keys of a map are distinct. -/
structure SlotShape (t : Fin n) (f : Field n) (slot : List Value) : Prop where
  single : f.repeated = false → slot.length ≤ 1
  unset : f.repeated = false → slot = [] → f.presence ∧ (P.desc t).mapEntry = false
  keys : P.isMap f → (slot.map entryKey).Nodup

mutual

def TypedFields (t : Fin n) : List (Field n) → List (List Value) → Prop
  | [], [] => True
  | f :: fields, slot :: slots =>
    SlotShape P t f slot ∧ TypedItems f.type slot ∧ TypedFields t fields slots
  | _, _ => False

def TypedItems (ty : CppType n) : List Value → Prop
  | [] => True
  | v :: vs => TypedValue ty v ∧ TypedItems ty vs

def TypedValue (ty : CppType n) : Value → Prop
  | .scalar x => CanHold ty x
  | .message slots =>
    match ty.messageType? with
    | some s => TypedFields s (P.desc s).fields slots
    | none => False

end

/-- A message of a type. -/
def Typed (t : Fin n) (m : Slots) : Prop := TypedFields P t (P.desc t).fields m

end Typed

section Outline

variable (F : FloatText) (P : Pool n)

/-- A key with what stands on its line behind the colon, and the lines below it. -/
def headed (indent : Nat) (key inline : List Char) (below : List Ln) : List Ln :=
  ⟨indent, key ++ ':' :: inline⟩ :: below

/-- The lines of an element: its first one has the dash. -/
def dashed (indent : Nat) : List Ln → List Ln
  | [] => [⟨indent, ['-', ' ', '{', '}']⟩]
  | l :: below => ⟨indent, '-' :: ' ' :: l.s⟩ :: below

/-- A key and a block, on one line where the block is empty. -/
def headedBlock (indent : Nat) (key : List Char) : List Ln → List Ln
  | [] => headed indent key [' ', '{', '}'] []
  | l :: below => headed indent key [] (l :: below)

mutual

/-- The lines that the writer makes of the fields of a message. -/
def outlineFields (indent : Nat) : List (Field n) → List (List Value) → List Ln
  | _, [] => []
  | [], _ :: _ => []
  | f :: fields, slot :: slots => outlineField indent f slot ++ outlineFields indent fields slots

def outlineField (indent : Nat) (f : Field n) : List Value → List Ln
  | [] =>
    if P.isMap f then headed indent f.name [' ', '{', '}'] []
    else if f.repeated then headed indent f.name [' ', '[', ']'] []
    else if f.presence then []
    else headed indent f.name (' ' :: inlineText F f.type f.type.default) []
  | v :: vs =>
    if P.isMap f then
      headed indent f.name [] (outlineEntry (indent + 2) f v ++ outlineEntries (indent + 2) f vs)
    else if f.repeated then
      headed indent f.name [] (outlineItem (indent + 2) f v ++ outlineItems (indent + 2) f vs)
    else outlineValue indent f.name f v

def outlineEntries (indent : Nat) (f : Field n) : List Value → List Ln
  | [] => []
  | v :: vs => outlineEntry indent f v ++ outlineEntries indent f vs

def outlineEntry (indent : Nat) (f : Field n) : Value → List Ln
  | .message [key, value] =>
    match f.type.messageType?.map fun s => (P.desc s).fields with
    | some [kf, vf] =>
      outlineEntryValue indent (inlineText F kf.type (scalarOf kf key)) vf value
    | _ => []
  | _ => []

def outlineEntryValue (indent : Nat) (key : List Char) (vf : Field n) : List Value → List Ln
  | [] => []
  | v :: _ => outlineValue indent key vf v

/-- A value below or behind its key. -/
def outlineValue (indent : Nat) (key : List Char) (f : Field n) : Value → List Ln
  | .scalar x => headed indent key (' ' :: inlineText F f.type x) []
  | .message slots =>
    match f.type.messageType? with
    | some s => headedBlock indent key (outlineFields (indent + 2) (P.desc s).fields slots)
    | none => []

def outlineItems (indent : Nat) (f : Field n) : List Value → List Ln
  | [] => []
  | v :: vs => outlineItem indent f v ++ outlineItems indent f vs

def outlineItem (indent : Nat) (f : Field n) : Value → List Ln
  | .scalar x => [⟨indent, '-' :: ' ' :: inlineText F f.type x⟩]
  | .message slots =>
    match f.type.messageType? with
    | some s => dashed indent (outlineFields (indent + 2) (P.desc s).fields slots)
    | none => []

end

end Outline

/-- The text of some lines. -/
def renderLn (l : Ln) : List Char := pad l.indent ++ l.s ++ ['\n']

def lineText (lines : List Ln) : List Char := lines.flatMap renderLn

@[simp] theorem render_nil : lineText [] = [] := rfl

@[simp] theorem render_cons (l : Ln) (lines : List Ln) :
    lineText (l :: lines) = renderLn l ++ lineText lines := rfl

@[simp] theorem render_append (a b : List Ln) : lineText (a ++ b) = lineText a ++ lineText b := by
  simp [lineText]

theorem lineText_ne_nil {lines : List Ln} (h : lines ≠ []) : lineText lines ≠ [] := by
  cases lines with
  | nil => exact absurd rfl h
  | cons l lines => simp [renderLn]

/-- A line that the tokenizer leaves as it is. -/
structure LineOk (l : Ln) : Prop where
  oneLine : ∀ c ∈ l.s, c ≠ '\n'
  first : ∃ c cs, l.s = c :: cs ∧ c ≠ ' '
  last : ∀ c ∈ l.s.getLast?, c ≠ ' ' ∧ c ≠ '\t' ∧ c ≠ '\r'
  content : l.s ≠ ['-', '-', '-'] ∧ l.s ≠ ['.', '.', '.']

theorem dropBlanksRight_eq_self {cs : List Char}
    (h : ∀ c ∈ cs.getLast?, c ≠ ' ' ∧ c ≠ '\t') : dropBlanksRight cs = cs := by
  have stop : ∀ c ∈ cs.reverse.head?, (decide (c = ' ') || decide (c = '\t')) = false := by
    intro c hc
    rw [List.head?_reverse] at hc
    simp [h c hc]
  rw [dropBlanksRight, dropWhile_of_head stop, List.reverse_reverse]

theorem lineOf_renderLn {l : Ln} (h : LineOk l) : lineOf (pad l.indent ++ l.s) = some l := by
  obtain ⟨c, cs, hs, hc⟩ := h.first
  have nonempty : l.s ≠ [] := by simp [hs]
  have keep : dropReturn (pad l.indent ++ l.s) = pad l.indent ++ l.s := by
    have last : (pad l.indent ++ l.s).getLast? ≠ some '\r' := by
      rw [List.getLast?_append_of_ne_nil _ nonempty]
      exact fun hr => (h.last '\r' hr).2.2 rfl
    rw [dropReturn, if_neg last]
  have spaces : ∀ c ∈ pad l.indent, decide (c = ' ') := by
    intro c hc
    simpa using List.eq_of_mem_replicate hc
  have stop : ∀ c ∈ l.s.head?, decide (c = ' ') = false := by simp [hs, hc]
  obtain ⟨taken, dropped⟩ := span_append spaces stop
  have right : dropBlanksRight l.s = l.s :=
    dropBlanksRight_eq_self fun c hc => ⟨(h.last c hc).1, (h.last c hc).2.1⟩
  simp only [lineOf, keep, taken, dropped, right, nonempty, h.content.1, h.content.2, or_self,
    ↓reduceIte]
  simp [pad]

theorem render_eq_flatMap (lines : List Ln) :
    lineText lines = (lines.map fun l => pad l.indent ++ l.s).flatMap fun cs => cs ++ ['\n'] := by
  simp only [lineText, List.flatMap_map]
  rfl

theorem splitOn_render {lines : List Ln} (h : ∀ l ∈ lines, ∀ c ∈ l.s, c ≠ '\n') :
    (lineText lines).splitOn '\n' = (lines.map fun l => pad l.indent ++ l.s) ++ [[]] := by
  have inside : ∀ cs ∈ lines.map fun l => pad l.indent ++ l.s, ∀ c ∈ cs, (c == '\n') = false := by
    intro cs hcs c hc
    obtain ⟨l, hl, rfl⟩ := List.mem_map.mp hcs
    rcases List.mem_append.mp hc with hp | hp
    · rw [List.eq_of_mem_replicate hp]
      decide
    · simpa using h l hl c hp
  have split := splitOnP_lines (by decide) _ [] inside (by simp)
  rwa [List.append_nil, ← render_eq_flatMap] at split

theorem tokenize_lineText {lines : List Ln} (h : ∀ l ∈ lines, LineOk l) :
    tokenize (lineText lines) = lines := by
  have ends : lineOf [] = none := by decide
  rw [tokenize, splitOn_render fun l hl => (h l hl).oneLine, List.filterMap_append,
    List.filterMap_map]
  simp only [List.filterMap_cons, ends, List.filterMap_nil, List.append_nil]
  have each : ∀ l ∈ lines, (lineOf ∘ fun l => pad l.indent ++ l.s) l = some l :=
    fun l hl => lineOf_renderLn (h l hl)
  rw [List.filterMap_congr each]
  exact List.filterMap_some

theorem spliceLines_rest (dashIndent : Nat) (raws : List (List Char)) :
    spliceLines dashIndent false (raws ++ [[]]) = raws.flatMap fun cs => cs ++ ['\n'] := by
  induction raws with
  | nil => rfl
  | cons raw raws ih =>
    rw [List.cons_append, spliceLines]
    simp [ih]

/-- The dash takes the place of the first line's indent. -/
theorem spliceDash_render {l : Ln} {lines : List Ln} (dashIndent : Nat)
    (hl : l.indent = dashIndent + 2) (h : ∀ k ∈ l :: lines, ∀ c ∈ k.s, c ≠ '\n') :
    spliceDash (lineText (l :: lines)) dashIndent = lineText (dashed dashIndent (l :: lines)) := by
  have first : (pad l.indent ++ l.s).drop (dashIndent + 2) = l.s := by
    rw [← hl]
    simp [pad]
  rw [spliceDash, splitOn_render h, List.map_cons, List.cons_append, spliceLines, first,
    spliceLines_rest, ← render_eq_flatMap]
  simp [dashed, renderLn]

/-- The text of a scalar on its line: a quoted string, or a bare word with a sign or without. -/
inductive Inline : List Char → Prop
  | quoted (s : List Char) : Inline (quote s)
  | bare {cs : List Char} (h : isName cs) : Inline cs
  | negative {cs : List Char} (h : isName cs) : Inline ('-' :: cs)

theorem isName_cons {cs : List Char} (h : isName cs) :
    (∃ c rest, cs = c :: rest) ∧ ∀ c ∈ cs, isWord c := by
  simp only [isName, Bool.and_eq_true, List.all_eq_true] at h
  refine ⟨?_, h.2⟩
  cases cs with
  | nil => simp at h
  | cons c rest => exact ⟨c, rest, rfl⟩

theorem isName_decimal (k : Nat) : isName (decimal k) := by
  simp only [isName, Bool.and_eq_true, List.all_eq_true]
  refine ⟨?_, fun c hc => isWord_of_isDigit (decimal_isDigit hc)⟩
  cases h : decimal k with
  | nil => exact absurd h (decimal_ne_nil k)
  | cons c cs => rfl

theorem inline_intText (k : Int) : Inline (intText k) := by
  unfold intText
  split
  · exact .negative (isName_decimal _)
  · exact .bare (isName_decimal _)

theorem inline_inlineText (F : FloatText) {ty : CppType n} {x : Scalar} (h : CanHold ty x) :
    Inline (inlineText F ty x) := by
  cases ty <;> cases x <;> simp only [CanHold] at h
  case int32.int k => exact inline_intText k
  case int64.int k => exact inline_intText k
  case uint32.int k => exact inline_intText k
  case uint64.int k => exact inline_intText k
  case bool.bool b =>
    have word : isName (boolText b) := by cases b <;> decide
    exact .bare word
  case enum.int e k => exact .bare (find?_enumName h).2
  case string.text s => exact .quoted s

theorem Inline.head {cs : List Char} (h : Inline cs) :
    ∃ c rest, cs = c :: rest ∧ c ≠ ' ' ∧ c ≠ '{' ∧ c ≠ '[' := by
  cases h with
  | quoted s => exact ⟨'"', _, rfl, by decide⟩
  | negative h => exact ⟨'-', _, rfl, by decide⟩
  | bare h =>
    obtain ⟨⟨c, rest, rfl⟩, word⟩ := isName_cons h
    have hc := word c List.mem_cons_self
    exact ⟨c, rest, rfl, ne_of_isWord hc (by decide), ne_of_isWord hc (by decide),
      ne_of_isWord hc (by decide)⟩

/-- A character is quoted with a backslash, or it stands for itself. -/
theorem quoteChar_cases (c : Char) :
    (∃ d, quoteChar c = ['\\', d] ∧ d ≠ '\n' ∧
      (if d = 'n' then '\n' else if d = 't' then '\t' else d) = c) ∨
    (quoteChar c = [c] ∧ c ≠ '\\' ∧ c ≠ '"' ∧ c ≠ '\n') := by
  unfold quoteChar
  split
  case h_5 h₁ h₂ h₃ _ => exact .inr ⟨rfl, h₁, h₂, h₃⟩
  all_goals exact .inl ⟨_, rfl, by decide⟩

theorem quoteChar_ne_newline {c d : Char} (h : d ∈ quoteChar c) : d ≠ '\n' := by
  rcases quoteChar_cases c with ⟨e, hq, he, -⟩ | ⟨hq, -, -, hc⟩
  · rw [hq] at h
    rcases List.mem_cons.mp h with rfl | h
    · decide
    · rwa [List.mem_singleton.mp h]
  · rw [hq, List.mem_singleton] at h
    rwa [h]

theorem Inline.oneLine {cs : List Char} (h : Inline cs) : ∀ c ∈ cs, c ≠ '\n' := by
  intro c hc
  cases h with
  | quoted s =>
    simp only [quote, List.mem_cons, List.mem_append, List.mem_flatMap, List.not_mem_nil,
      or_false] at hc
    rcases hc with rfl | ⟨d, -, hd⟩ | rfl
    · decide
    · exact quoteChar_ne_newline hd
    · decide
  | bare h => exact ne_of_isWord ((isName_cons h).2 c hc) (by decide)
  | negative h =>
    rcases List.mem_cons.mp hc with rfl | hc
    · decide
    · exact ne_of_isWord ((isName_cons h).2 c hc) (by decide)

theorem isName_last {cs : List Char} (h : isName cs) {c : Char} (hc : c ∈ cs.getLast?) :
    c ≠ ' ' ∧ c ≠ '\t' ∧ c ≠ '\r' := by
  have word := (isName_cons h).2 c (List.mem_of_getLast? hc)
  exact ⟨ne_of_isWord word (by decide), ne_of_isWord word (by decide),
    ne_of_isWord word (by decide)⟩

theorem Inline.last {cs : List Char} (h : Inline cs) :
    ∀ c ∈ cs.getLast?, c ≠ ' ' ∧ c ≠ '\t' ∧ c ≠ '\r' := by
  intro c hc
  cases h with
  | quoted s =>
    have last : (quote s).getLast? = some '"' := by
      rw [quote, ← List.cons_append, List.getLast?_append]
      rfl
    rw [last, Option.mem_some_iff] at hc
    rw [← hc]
    decide
  | bare h => exact isName_last h hc
  | negative h =>
    obtain ⟨⟨d, rest, rfl⟩, -⟩ := isName_cons h
    rw [List.getLast?_cons_cons] at hc
    exact isName_last h hc

/-- A key at the start of its line. -/
structure KeyOk (key : List Char) : Prop where
  oneLine : ∀ c ∈ key, c ≠ '\n'
  first : ∃ c cs, key = c :: cs ∧ c ≠ ' '

theorem Inline.keyOk {cs : List Char} (h : Inline cs) : KeyOk cs := by
  obtain ⟨c, rest, hcs, hc, -⟩ := h.head
  exact ⟨h.oneLine, c, rest, hcs, hc⟩

theorem lineOk_headed (indent : Nat) {key inline : List Char} (hk : KeyOk key)
    (oneLine : ∀ c ∈ inline, c ≠ '\n')
    (last : ∀ c ∈ inline.getLast?, c ≠ ' ' ∧ c ≠ '\t' ∧ c ≠ '\r') :
    LineOk ⟨indent, key ++ ':' :: inline⟩ := by
  have colon : ':' ∈ key ++ ':' :: inline := by simp
  constructor
  · intro c hc
    rcases List.mem_append.mp hc with hc | hc
    · exact hk.oneLine c hc
    · rcases List.mem_cons.mp hc with rfl | hc
      · decide
      · exact oneLine c hc
  · obtain ⟨c, cs, rfl, hc⟩ := hk.first
    exact ⟨c, cs ++ ':' :: inline, rfl, hc⟩
  · intro c hc
    rw [List.getLast?_append_cons] at hc
    cases inline with
    | nil =>
      rw [List.getLast?_singleton, Option.mem_some_iff] at hc
      rw [← hc]
      decide
    | cons d ds =>
      rw [List.getLast?_cons_cons] at hc
      exact last c hc
  · constructor <;> intro he <;> simp only at he <;> rw [he] at colon <;> simp at colon

theorem lineOk_headed_inline (indent : Nat) {key txt : List Char} (hk : KeyOk key)
    (ht : Inline txt) : LineOk ⟨indent, key ++ ':' :: ' ' :: txt⟩ := by
  refine lineOk_headed indent hk (fun c hc => ?_) fun c hc => ?_
  · rcases List.mem_cons.mp hc with rfl | hc
    · decide
    · exact ht.oneLine c hc
  · obtain ⟨d, rest, rfl, -⟩ := ht.head
    rw [List.getLast?_cons_cons] at hc
    exact ht.last c hc

theorem lineOk_dashed (indent : Nat) {s : List Char} (oneLine : ∀ c ∈ s, c ≠ '\n') (hs : s ≠ [])
    (last : ∀ c ∈ s.getLast?, c ≠ ' ' ∧ c ≠ '\t' ∧ c ≠ '\r') :
    LineOk ⟨indent, '-' :: ' ' :: s⟩ := by
  constructor
  · intro c hc
    rcases List.mem_cons.mp hc with rfl | hc
    · decide
    · rcases List.mem_cons.mp hc with rfl | hc
      · decide
      · exact oneLine c hc
  · exact ⟨'-', ' ' :: s, rfl, by decide⟩
  · intro c hc
    cases s with
    | nil => exact absurd rfl hs
    | cons d ds =>
      rw [List.getLast?_cons_cons, List.getLast?_cons_cons] at hc
      exact last c hc
  · constructor <;> intro he <;> simp at he

section Lines

variable (F : FloatText) (P : Pool n)

/-- A value makes lines that the tokenizer leaves as they are. -/
structure LinesOk (v : Value) : Prop where
  value : ∀ indent key f, KeyOk key → TypedValue P f.type v →
    ∀ l ∈ outlineValue F P indent key f v, LineOk l
  item : ∀ indent f, TypedValue P f.type v → ∀ l ∈ outlineItem F P indent f v, LineOk l
  entry : ∀ indent f, P.isMap f → TypedValue P f.type v →
    ∀ l ∈ outlineEntry F P indent f v, LineOk l

variable {F P}

theorem isName_inline {cs : List Char} (h : isName cs) : KeyOk cs := (Inline.bare h).keyOk

theorem outlineItems_ok {vs : List Value} (ih : ∀ v ∈ vs, LinesOk F P v) (indent : Nat)
    (f : Field n) (h : TypedItems P f.type vs) : ∀ l ∈ outlineItems F P indent f vs, LineOk l := by
  induction vs with
  | nil => simp [outlineItems]
  | cons v vs rest =>
    rw [TypedItems] at h
    obtain ⟨here, below⟩ := List.forall_mem_cons.mp ih
    rw [outlineItems]
    exact List.forall_mem_append.mpr ⟨here.item indent f h.1, rest below h.2⟩

theorem outlineEntries_ok {vs : List Value} (ih : ∀ v ∈ vs, LinesOk F P v) (indent : Nat)
    {f : Field n} (hm : P.isMap f) (h : TypedItems P f.type vs) :
    ∀ l ∈ outlineEntries F P indent f vs, LineOk l := by
  induction vs with
  | nil => simp [outlineEntries]
  | cons v vs rest =>
    rw [TypedItems] at h
    obtain ⟨here, below⟩ := List.forall_mem_cons.mp ih
    rw [outlineEntries]
    exact List.forall_mem_append.mpr ⟨here.entry indent f hm h.1, rest below h.2⟩

theorem lineOk_flow (indent : Nat) {key inline : List Char} (hk : KeyOk key)
    (h : inline = [' ', '{', '}'] ∨ inline = [' ', '[', ']'] ∨ inline = []) :
    LineOk ⟨indent, key ++ ':' :: inline⟩ := by
  refine lineOk_headed indent hk ?_ ?_ <;> rcases h with rfl | rfl | rfl <;> simp

theorem outlineField_ok {t : Fin n} {f : Field n} {slot : List Value} (hn : isName f.name)
    (shape : SlotShape P t f slot) (ih : ∀ v ∈ slot, LinesOk F P v) (indent : Nat)
    (h : TypedItems P f.type slot) : ∀ l ∈ outlineField F P indent f slot, LineOk l := by
  have key := isName_inline hn
  cases slot with
  | nil =>
    rw [outlineField]
    split
    · exact fun l hl => List.mem_singleton.mp hl ▸ lineOk_flow indent key (.inl rfl)
    · split
      · exact fun l hl => List.mem_singleton.mp hl ▸ lineOk_flow indent key (.inr (.inl rfl))
      next hr =>
        rw [if_pos (shape.unset (by simpa using hr) rfl).1]
        simp
  | cons v vs =>
    rw [TypedItems] at h
    obtain ⟨here, below⟩ := List.forall_mem_cons.mp ih
    have head := lineOk_flow indent key (.inr (.inr rfl))
    rw [outlineField]
    split
    next hm =>
      exact List.forall_mem_cons.mpr ⟨head, List.forall_mem_append.mpr
        ⟨here.entry _ f hm h.1, outlineEntries_ok below _ hm h.2⟩⟩
    · split
      · exact List.forall_mem_cons.mpr ⟨head, List.forall_mem_append.mpr
          ⟨here.item _ f h.1, outlineItems_ok below _ f h.2⟩⟩
      · exact here.value indent f.name f key h.1

theorem outlineFields_ok {t : Fin n} {fields : List (Field n)} {slots : List (List Value)}
    (hn : ∀ f ∈ fields, isName f.name) (ih : ∀ slot ∈ slots, ∀ v ∈ slot, LinesOk F P v)
    (indent : Nat) (h : TypedFields P t fields slots) :
    ∀ l ∈ outlineFields F P indent fields slots, LineOk l := by
  induction slots generalizing fields with
  | nil => simp [outlineFields]
  | cons slot slots rest =>
    cases fields with
    | nil => exact absurd h (by simp [TypedFields])
    | cons f fields =>
      rw [TypedFields] at h
      obtain ⟨here, below⟩ := List.forall_mem_cons.mp ih
      obtain ⟨hf, hfields⟩ := List.forall_mem_cons.mp hn
      rw [outlineFields]
      exact List.forall_mem_append.mpr
        ⟨outlineField_ok hf h.1 here indent h.2.1, rest hfields below h.2.2⟩

theorem SlotShape.exists_one {t : Fin n} {f : Field n} {slot : List Value}
    (h : SlotShape P t f slot) (single : f.repeated = false)
    (always : f.presence = false ∨ (P.desc t).mapEntry) : ∃ v, slot = [v] := by
  cases slot with
  | nil =>
    obtain ⟨presence, message⟩ := h.unset single rfl
    rcases always with always | always
    · simp [presence] at always
    · simp [message] at always
  | cons v vs =>
    have short := h.single single
    cases vs with
    | nil => exact ⟨v, rfl⟩
    | cons _ _ => simp at short

theorem typed_scalar {ty : CppType n} {v : Value} (scalar : ty.isMessage = false)
    (h : TypedValue P ty v) : ∃ x, v = .scalar x ∧ CanHold ty x := by
  cases v with
  | scalar x =>
    rw [TypedValue] at h
    exact ⟨x, rfl, h⟩
  | message slots =>
    have none' : ty.messageType? = none := by simpa [CppType.isMessage] using scalar
    simp [TypedValue, none'] at h

theorem typed_entry {f : Field n} {v : Value} (hm : P.isMap f) (h : TypedValue P f.type v) :
    ∃ s kf vf k w, f.type.messageType? = some s ∧ (P.desc s).fields = [kf, vf] ∧
      v = .message [[.scalar k], [w]] ∧ CanHold kf.type k ∧ TypedValue P vf.type w ∧
      kf.repeated = false ∧ vf.repeated = false := by
  obtain ⟨s, hs⟩ := Pool.isMap_message hm
  obtain ⟨entry, kf, vf, hfields, -, -, hk, hv, scalar⟩ := Pool.isMap_fields hm hs
  cases v with
  | scalar x =>
    rw [TypedValue] at h
    cases hty : f.type <;> simp_all [CanHold, CppType.messageType?]
  | message slots =>
    rw [TypedValue, hs] at h
    simp only [hfields] at h
    rcases slots with _ | ⟨ks, _ | ⟨vs, _ | ⟨_, _⟩⟩⟩
    · simp [TypedFields] at h
    · simp [TypedFields] at h
    · simp only [TypedFields, and_true] at h
      obtain ⟨kshape, hks, vshape, hvs⟩ := h
      obtain ⟨k, rfl⟩ := kshape.exists_one hk (.inr entry)
      obtain ⟨w, rfl⟩ := vshape.exists_one hv (.inr entry)
      simp only [TypedItems, and_true] at hks hvs
      obtain ⟨k, rfl, hks⟩ := typed_scalar scalar hks
      exact ⟨s, kf, vf, k, w, hs, hfields, rfl, hks, hvs, hk, hv⟩
    · simp [TypedFields] at h

theorem typed_message {ty : CppType n} {slots : List (List Value)}
    (h : TypedValue P ty (.message slots)) :
    ∃ s, ty.messageType? = some s ∧ TypedFields P s (P.desc s).fields slots := by
  rw [TypedValue] at h
  cases hs : ty.messageType? with
  | none => simp [hs] at h
  | some s =>
    simp only [hs] at h
    exact ⟨s, rfl, h⟩

/-- Every value of a type makes lines that the tokenizer leaves as they are. -/
theorem linesOk (v : Value) : LinesOk F P v := by
  induction v using Value.induct with
  | scalar x =>
    constructor
    · intro indent key f hk h l hl
      rw [TypedValue] at h
      rw [outlineValue, headed, List.mem_singleton] at hl
      rw [hl]
      exact lineOk_headed_inline indent hk (inline_inlineText F h)
    · intro indent f h l hl
      rw [TypedValue] at h
      have txt := inline_inlineText F h
      obtain ⟨c, rest, hc, -⟩ := txt.head
      rw [outlineItem, List.mem_singleton] at hl
      rw [hl]
      exact lineOk_dashed indent txt.oneLine (by simp [hc]) txt.last
    · intro indent f hm h
      simp [outlineEntry]
  | message slots ih =>
    have fields : ∀ (s : Fin n) indent, TypedFields P s (P.desc s).fields slots →
        ∀ l ∈ outlineFields F P indent (P.desc s).fields slots, LineOk l :=
      fun s indent h => outlineFields_ok (P.names_word s) ih indent h
    constructor
    · intro indent key f hk h
      obtain ⟨s, hs, typed⟩ := typed_message h
      have block := fields s (indent + 2) typed
      simp only [outlineValue, hs]
      cases hb : outlineFields F P (indent + 2) (P.desc s).fields slots with
      | nil => exact fun l hl => List.mem_singleton.mp hl ▸ lineOk_flow indent hk (.inl rfl)
      | cons first below =>
        rw [hb] at block
        exact List.forall_mem_cons.mpr ⟨lineOk_flow indent hk (.inr (.inr rfl)), block⟩
    · intro indent f h
      obtain ⟨s, hs, typed⟩ := typed_message h
      have block := fields s (indent + 2) typed
      simp only [outlineItem, hs]
      cases hb : outlineFields F P (indent + 2) (P.desc s).fields slots with
      | nil =>
        exact fun l hl => List.mem_singleton.mp hl ▸
          lineOk_dashed indent (by simp) (by simp) (by simp)
      | cons first below =>
        rw [hb] at block
        obtain ⟨hfirst, hbelow⟩ := List.forall_mem_cons.mp block
        obtain ⟨c, cs, hc, -⟩ := hfirst.first
        exact List.forall_mem_cons.mpr
          ⟨lineOk_dashed indent hfirst.oneLine (by simp [hc]) hfirst.last, hbelow⟩
    · intro indent f hm h
      obtain ⟨s, kf, vf, k, w, hs, hfields, he, hk, hw, -⟩ := typed_entry hm h
      rw [Value.message.injEq] at he
      subst he
      simp only [outlineEntry, hs, Option.map_some, hfields, outlineEntryValue]
      exact (ih [w] (by simp) w (by simp)).value indent _ vf (inline_inlineText F hk).keyOk hw

theorem head_append {p : Ln → Prop} {a b : List Ln} (ha : ∀ l ∈ a.head?, p l)
    (hb : ∀ l ∈ b.head?, p l) : ∀ l ∈ (a ++ b).head?, p l := by
  cases a with
  | nil => exact hb
  | cons l a => exact ha

theorem outlineValue_head (indent : Nat) (key : List Char) (f : Field n) (v : Value) :
    ∀ l ∈ (outlineValue F P indent key f v).head?, l.indent = indent := by
  intro l hl
  cases v with
  | scalar x =>
    simp only [outlineValue, headed, List.head?_cons, Option.mem_some_iff] at hl
    rw [← hl]
  | message slots =>
    rw [outlineValue] at hl
    split at hl
    next s _ =>
      cases hb : outlineFields F P (indent + 2) (P.desc s).fields slots <;> rw [hb] at hl <;>
        simp only [headedBlock, headed, List.head?_cons, Option.mem_some_iff] at hl <;> rw [← hl]
    next => simp at hl

/-- A value's first line starts with its key. -/
theorem outlineValue_cons (F : FloatText) {f : Field n} {v : Value} (h : TypedValue P f.type v)
    (indent : Nat) (key : List Char) :
    ∃ inline more, outlineValue F P indent key f v = ⟨indent, key ++ ':' :: inline⟩ :: more := by
  cases v with
  | scalar x => exact ⟨_, [], rfl⟩
  | message slots =>
    obtain ⟨s, hs, -⟩ := typed_message h
    simp only [outlineValue, hs]
    cases outlineFields F P (indent + 2) (P.desc s).fields slots with
    | nil => exact ⟨_, _, rfl⟩
    | cons l below => exact ⟨_, _, rfl⟩

/-- An element's first line starts with its dash. -/
theorem outlineItem_cons (F : FloatText) {f : Field n} {v : Value} (h : TypedValue P f.type v)
    (indent : Nat) :
    ∃ text more, outlineItem F P indent f v = ⟨indent, '-' :: ' ' :: text⟩ :: more := by
  cases v with
  | scalar x => exact ⟨_, [], rfl⟩
  | message slots =>
    obtain ⟨s, hs, -⟩ := typed_message h
    simp only [outlineItem, hs]
    cases outlineFields F P (indent + 2) (P.desc s).fields slots with
    | nil => exact ⟨_, _, rfl⟩
    | cons l below => exact ⟨_, _, rfl⟩

/-- An entry's first line starts with its key. -/
theorem outlineEntry_cons (F : FloatText) {f : Field n} {v : Value} (hm : P.isMap f)
    (h : TypedValue P f.type v) (indent : Nat) :
    ∃ key inline more, Inline key ∧
      outlineEntry F P indent f v = ⟨indent, key ++ ':' :: inline⟩ :: more := by
  obtain ⟨s, kf, vf, k, w, hs, hfields, rfl, hk, hw, -⟩ := typed_entry hm h
  obtain ⟨inline, more, lines⟩ := outlineValue_cons F hw indent (inlineText F kf.type k)
  refine ⟨inlineText F kf.type k, inline, more, inline_inlineText F hk, ?_⟩
  simp only [outlineEntry, hs, Option.map_some, hfields, outlineEntryValue, scalarOf]
  exact lines

theorem outlineField_head (indent : Nat) (f : Field n) (slot : List Value) :
    ∀ l ∈ (outlineField F P indent f slot).head?, l.indent = indent := by
  have head : ∀ {key inline below} {l : Ln}, l ∈ (headed indent key inline below).head? →
      l.indent = indent := by
    intro key inline below l hl
    rw [headed, List.head?_cons, Option.mem_some_iff] at hl
    rw [← hl]
  intro l hl
  cases slot with
  | nil =>
    rw [outlineField] at hl
    split at hl
    · exact head hl
    · split at hl
      · exact head hl
      · split at hl
        · simp at hl
        · exact head hl
  | cons v vs =>
    rw [outlineField] at hl
    split at hl
    · exact head hl
    · split at hl
      · exact head hl
      · exact outlineValue_head indent f.name f v l hl

theorem outlineFields_head (indent : Nat) (fields : List (Field n)) (slots : List (List Value)) :
    ∀ l ∈ (outlineFields F P indent fields slots).head?, l.indent = indent := by
  induction slots generalizing fields with
  | nil => simp [outlineFields]
  | cons slot slots ih =>
    cases fields with
    | nil => simp [outlineFields]
    | cons f fields =>
      rw [outlineFields]
      exact head_append (outlineField_head indent f slot) (ih fields)

theorem outlineItem_head (indent : Nat) (f : Field n) (v : Value) :
    ∀ l ∈ (outlineItem F P indent f v).head?, l.indent = indent := by
  intro l hl
  cases v with
  | scalar x =>
    simp only [outlineItem, List.head?_cons, Option.mem_some_iff] at hl
    rw [← hl]
  | message slots =>
    rw [outlineItem] at hl
    split at hl
    next s _ =>
      cases hb : outlineFields F P (indent + 2) (P.desc s).fields slots <;> rw [hb] at hl <;>
        simp only [dashed, List.head?_cons, Option.mem_some_iff] at hl <;> rw [← hl]
    next => simp at hl

theorem outlineItems_head (indent : Nat) (f : Field n) (vs : List Value) :
    ∀ l ∈ (outlineItems F P indent f vs).head?, l.indent = indent := by
  induction vs with
  | nil => simp [outlineItems]
  | cons v vs ih =>
    rw [outlineItems]
    exact head_append (outlineItem_head indent f v) ih

theorem outlineEntry_head (indent : Nat) (f : Field n) (v : Value) :
    ∀ l ∈ (outlineEntry F P indent f v).head?, l.indent = indent := by
  intro l hl
  unfold outlineEntry at hl
  split at hl
  next key value =>
    split at hl
    next kf vf _ =>
      cases value with
      | nil => simp [outlineEntryValue] at hl
      | cons w ws => exact outlineValue_head indent _ vf w l hl
    next => simp at hl
  next => simp at hl

theorem outlineEntries_head (indent : Nat) (f : Field n) (vs : List Value) :
    ∀ l ∈ (outlineEntries F P indent f vs).head?, l.indent = indent := by
  induction vs with
  | nil => simp [outlineEntries]
  | cons v vs ih =>
    rw [outlineEntries]
    exact head_append (outlineEntry_head indent f v) ih

variable (F P)

/-- The text of a value is that of its lines. -/
structure Prints (v : Value) : Prop where
  block : ∀ indent key f, TypedValue P f.type v → lineText (outlineValue F P indent key f v) =
    pad indent ++ key ++ ':' :: writeBlock F P (indent + 2) f v
  item : ∀ indent f, TypedValue P f.type v →
    lineText (outlineItem F P (indent + 2) f v) = writeItem F P indent f v
  entry : ∀ indent f, P.isMap f → TypedValue P f.type v →
    lineText (outlineEntry F P (indent + 2) f v) = writeEntry F P indent f v

variable {F P}

theorem writeItems_eq {vs : List Value} (ih : ∀ v ∈ vs, Prints F P v) (indent : Nat)
    (f : Field n) (h : TypedItems P f.type vs) :
    lineText (outlineItems F P (indent + 2) f vs) = writeItems F P indent f vs := by
  induction vs with
  | nil => rfl
  | cons v vs rest =>
    rw [TypedItems] at h
    obtain ⟨here, below⟩ := List.forall_mem_cons.mp ih
    rw [outlineItems, writeItems, render_append, here.item indent f h.1, rest below h.2]

theorem writeEntries_eq {vs : List Value} (ih : ∀ v ∈ vs, Prints F P v) (indent : Nat)
    {f : Field n} (hm : P.isMap f) (h : TypedItems P f.type vs) :
    lineText (outlineEntries F P (indent + 2) f vs) = writeEntries F P indent f vs := by
  induction vs with
  | nil => rfl
  | cons v vs rest =>
    rw [TypedItems] at h
    obtain ⟨here, below⟩ := List.forall_mem_cons.mp ih
    rw [outlineEntries, writeEntries, render_append, here.entry indent f hm h.1, rest below h.2]

theorem render_headed (indent : Nat) (key inline : List Char) (below : List Ln) :
    lineText (headed indent key inline below) =
      pad indent ++ key ++ ':' :: inline ++ '\n' :: lineText below := by
  simp [headed, renderLn]

theorem writeField_eq {f : Field n} {slot : List Value} (ih : ∀ v ∈ slot, Prints F P v)
    (indent : Nat) (h : TypedItems P f.type slot) :
    lineText (outlineField F P indent f slot) = writeField F P indent f slot := by
  cases slot with
  | nil =>
    rw [outlineField, writeField]
    split
    · simp [render_headed]
    · split
      · simp [render_headed]
      · split
        · rfl
        · simp [render_headed]
  | cons v vs =>
    rw [TypedItems] at h
    obtain ⟨here, below⟩ := List.forall_mem_cons.mp ih
    rw [outlineField, writeField]
    split
    next hm =>
      rw [render_headed, render_append, here.entry indent f hm h.1,
        writeEntries_eq below indent hm h.2]
      simp
    · split
      · rw [render_headed, render_append, here.item indent f h.1,
          writeItems_eq below indent f h.2]
        simp
      · exact here.block indent f.name f h.1

theorem writeFields_eq {t : Fin n} {fields : List (Field n)} {slots : List (List Value)}
    (ih : ∀ slot ∈ slots, ∀ v ∈ slot, Prints F P v) (indent : Nat)
    (h : TypedFields P t fields slots) :
    lineText (outlineFields F P indent fields slots) = writeFields F P indent fields slots := by
  induction slots generalizing fields with
  | nil => simp [outlineFields, writeFields]
  | cons slot slots rest =>
    cases fields with
    | nil => exact absurd h (by simp [TypedFields])
    | cons f fields =>
      rw [TypedFields] at h
      obtain ⟨here, below⟩ := List.forall_mem_cons.mp ih
      rw [outlineFields, writeFields, render_append, writeField_eq here indent h.2.1,
        rest below h.2.2]

/-- The writer makes the lines of the outline. -/
theorem prints (v : Value) : Prints F P v := by
  induction v using Value.induct with
  | scalar x =>
    constructor
    · intro indent key f _
      simp [outlineValue, writeBlock, render_headed]
    · intro indent f _
      simp [outlineItem, writeItem, renderLn]
    · intro indent f _ _
      simp [outlineEntry, writeEntry]
  | message slots ih =>
    constructor
    · intro indent key f h
      obtain ⟨s, hs, typed⟩ := typed_message h
      have text := writeFields_eq ih (indent + 2) typed
      simp only [outlineValue, writeBlock, hs, ← text]
      cases outlineFields F P (indent + 2) (P.desc s).fields slots with
      | nil => simp [headedBlock, render_headed]
      | cons first below =>
        have some : lineText (first :: below) ≠ [] := lineText_ne_nil (by simp)
        rw [if_neg some, headedBlock, render_headed]
        simp
    · intro indent f h
      obtain ⟨s, hs, typed⟩ := typed_message h
      have text := writeFields_eq ih (indent + 4) typed
      have ok := outlineFields_ok (F := F) (P.names_word s) (fun _ _ v _ => linesOk v)
        (indent + 4) typed
      have column := outlineFields_head (F := F) (P := P) (indent + 4) (P.desc s).fields slots
      simp only [outlineItem, writeItem, hs, ← text]
      cases hb : outlineFields F P (indent + 4) (P.desc s).fields slots with
      | nil => simp [dashed, renderLn]
      | cons first below =>
        rw [hb] at ok column
        have some : lineText (first :: below) ≠ [] := lineText_ne_nil (by simp)
        rw [if_neg some, spliceDash_render (indent + 2) (column first rfl)
          fun k hk => (ok k hk).oneLine]
    · intro indent f hm h
      obtain ⟨s, kf, vf, k, w, hs, hfields, he, hk, hw, -⟩ := typed_entry hm h
      rw [Value.message.injEq] at he
      subst he
      have value := (ih [w] (by simp) w (by simp)).block (indent + 2)
        (inlineText F kf.type k) vf hw
      simp only [outlineEntry, writeEntry, hs, Option.map_some, hfields, outlineEntryValue,
        writeEntryValue, scalarOf]
      exact value

end Lines

end Harpia
