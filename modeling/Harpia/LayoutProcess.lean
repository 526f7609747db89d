import Harpia.Layout

namespace Harpia

/-- Tokens that neither open nor close anything: line ends and the content of plain lines. -/
def Inert (ts : List Token) : Prop := ∀ t ∈ ts, t.kind = .NEWLINE ∨ t.kind.structural = false

/-- The tokens before a header: whole lines, or nothing. -/
def WholeLines (ts : List Token) : Prop := ∀ t ∈ ts.getLast?, t.kind = .NEWLINE

theorem inert_of_plain {ts : List Token} (plain : ∀ t ∈ ts, t.kind.structural = false) : Inert ts :=
  fun t ht => Or.inr (plain t ht)

theorem Inert.append {xs ys : List Token} (hx : Inert xs) (hy : Inert ys) : Inert (xs ++ ys) := by
  intro t ht
  rcases List.mem_append.mp ht with ht | ht
  · exact hx t ht
  · exact hy t ht

theorem inert_newline {t : Token} (h : t.kind = .NEWLINE) : Inert [t] := by
  intro t' ht
  rw [List.mem_singleton.mp ht]
  exact Or.inl h

theorem Line.inert (l : Line) : Inert l.tokens :=
  (inert_of_plain l.content_plain).append (inert_newline l.newline_kind)

theorem Line.tokens_ne_nil (l : Line) : l.tokens ≠ [] := by simp [Line.tokens]

theorem Line.wholeLines (l : Line) : WholeLines l.tokens := by
  intro t ht
  rw [Line.tokens, List.getLast?_concat, Option.mem_some_iff] at ht
  exact ht ▸ l.newline_kind

theorem WholeLines.append {xs ys : List Token} (hx : WholeLines xs) (hy : WholeLines ys) :
    WholeLines (xs ++ ys) := by
  by_cases hne : ys = []
  · simpa [hne] using hx
  · intro t ht
    rw [List.getLast?_append_of_ne_nil _ hne] at ht
    exact hy t ht

theorem WholeLines.drop {ts : List Token} (h : WholeLines ts) {n : Nat} (hn : n < ts.length) :
    WholeLines (ts.drop n) := by
  intro t ht
  rw [List.getLast?_drop, if_neg (by omega)] at ht
  exact h t ht

theorem Layout.own_inert (L : Layout) {read : List Token} (h : Inert read) : Inert (L.own read) := by
  induction L generalizing read with
  | nil => exact h
  | line l rest ih => exact ih (h.append l.inert)
  | definition _ _ c rest _ ih =>
    have front : Inert read.dropLast := fun t ht => h t (List.mem_of_mem_dropLast ht)
    exact ih (front.append (inert_newline c.newline_kind))

theorem Layout.own_ne_nil (L : Layout) {read : List Token} (h : read ≠ []) : L.own read ≠ [] := by
  induction L generalizing read with
  | nil => exact h
  | line l rest ih => exact ih (by simp [h])
  | definition _ _ c rest _ ih => exact ih (by simp)

/-- What was read before the body stays in front. -/
theorem Layout.own_append (L : Layout) (front : List Token) {read : List Token} (h : read ≠ []) :
    L.own (front ++ read) = front ++ L.own read := by
  induction L generalizing read with
  | nil => rfl
  | line l rest ih =>
    rw [own, own, List.append_assoc]
    exact ih (by simp [h])
  | definition _ _ c rest _ ih =>
    rw [own, own, List.dropLast_append_of_ne_nil h, List.append_assoc]
    exact ih (by simp)

theorem fold_append {α β ε : Type} {f : β → α × Nat → Except ε β} {p q : β} {r : Except ε β}
    {xs ys : List α} {j : Nat} (hx : (xs.zipIdx j).foldlM f p = .ok q)
    (hy : (ys.zipIdx (j + xs.length)).foldlM f q = r) : ((xs ++ ys).zipIdx j).foldlM f p = r := by
  rw [List.zipIdx_append, List.foldlM_append, hx, ok_bind, hy]

theorem fold_cons {α β ε : Type} {f : β → α × Nat → Except ε β} {p q : β} {r : Except ε β}
    {x : α} {xs : List α} {j : Nat} (hx : f p (x, j) = .ok q)
    (hy : (xs.zipIdx (j + 1)).foldlM f q = r) : ((x :: xs).zipIdx j).foldlM f p = r := by
  rw [List.zipIdx_cons, List.foldlM_cons, hx, ok_bind, hy]

namespace Processing

variable (file : String) (available : List String) (tokens : List Token)

/-- The last token was not a keyword, so the next one need not be a name. -/
def Unnamed (p : Processing) : Prop := p.lastToken ≠ some .MESSAGE ∧ p.lastToken ≠ some .ENUM

/-- What a token outside the header and the braces moves. -/
def pass (p : Processing) (t : Token) (j : Nat) : Processing :=
  { p.readNewLine t j with lastToken := some t.kind }

theorem unnamed_pass {t : Token} (ht : t.kind = .NEWLINE ∨ t.kind.structural = false)
    (p : Processing) (j : Nat) : (p.pass t j).Unnamed := by
  constructor <;> intro h <;> rw [Option.some.inj h] at ht <;> simp [TokenKind.structural] at ht

theorem readNewLine_lastToken (p : Processing) (t : Token) (j : Nat) :
    (p.readNewLine t j).lastToken = p.lastToken := by
  unfold readNewLine
  split <;> rfl

theorem readName_unnamed {p q : Processing} (unnamed : p.Unnamed) (hq : q.lastToken = p.lastToken)
    (t : Token) : readName file q t = .ok q := by
  rw [readName, hq, if_neg (not_or.mpr unnamed)]

theorem processToken_inert {p : Processing} {t : Token} (j : Nat) (unnamed : p.Unnamed)
    (ht : t.kind = .NEWLINE ∨ t.kind.structural = false) :
    processToken file available tokens p (t, j) = .ok ((p.pass t j).readTail t) := by
  have keyword : ¬ (t.kind = .MESSAGE ∨ t.kind = .ENUM) := by
    rintro (h | h) <;> simp [h, TokenKind.structural] at ht
  have lbrace : t.kind ≠ .LBRACE := by
    intro h
    simp [h, TokenKind.structural] at ht
  have rbrace : t.kind ≠ .RBRACE := by
    intro h
    simp [h, TokenKind.structural] at ht
  rw [processToken, readKeyword, if_neg keyword, ok_bind,
    readName_unnamed file unnamed (readNewLine_lastToken p t j), ok_bind, readLBrace, if_neg lbrace, ok_bind,
    readRBrace, if_neg rbrace, ok_bind]
  rfl

/-- The line mark after a run of tokens. -/
def lineMark (cur : Option Nat) (ts : List Token) (j : Nat) : Option Nat :=
  (ts.zipIdx j).foldl (fun cur e => if e.1.kind = .NEWLINE then some e.2 else cur) cur

def lastKind (last : Option TokenKind) (ts : List Token) : Option TokenKind :=
  ts.getLast?.elim last fun t => some t.kind

theorem lineMark_plain {ts : List Token} (plain : ∀ t ∈ ts, t.kind.structural = false)
    (cur : Option Nat) (j : Nat) : lineMark cur ts j = cur := by
  induction ts generalizing j with
  | nil => rfl
  | cons t ts ih =>
    have ht : t.kind ≠ .NEWLINE := by
      intro h
      have := plain t (by simp)
      simp [h, TokenKind.structural] at this
    rw [lineMark, List.zipIdx_cons, List.foldl_cons, if_neg ht]
    exact ih (fun t h => plain t (List.mem_cons_of_mem _ h)) (j + 1)

/-- After whole lines the mark stands right before the next token. -/
theorem lineMark_wholeLines {ts : List Token} (whole : WholeLines ts) (hne : ts ≠ [])
    (cur : Option Nat) (j : Nat) : lineMark cur ts j = some (j + (ts.length - 1)) := by
  obtain ⟨init, last, rfl⟩ := (List.eq_nil_or_concat ts).resolve_left hne
  have hl : last.kind = .NEWLINE := whole last (by simp)
  simp [lineMark, List.zipIdx_append, hl]

theorem lastKind_cons (last : Option TokenKind) (t : Token) (ts : List Token) :
    lastKind last (t :: ts) = lastKind (some t.kind) ts := by
  cases ts <;> rfl

theorem lastKind_inert {ts : List Token} (inert : Inert ts) (last : Option TokenKind)
    (h : last ≠ some .MESSAGE ∧ last ≠ some .ENUM) :
    lastKind last ts ≠ some .MESSAGE ∧ lastKind last ts ≠ some .ENUM := by
  unfold lastKind
  cases ht : ts.getLast? with
  | none => exact h
  | some t =>
    have := inert t (List.mem_of_getLast? ht)
    constructor <;> intro hk <;> rw [Option.elim_some, Option.some.injEq] at hk <;>
      simp [hk, TokenKind.structural] at this

/-- Inert tokens before the closing brace. -/
theorem fold_inert {ts : List Token} (inert : Inert ts) {p : Processing} (unnamed : p.Unnamed)
    (open_ : p.rBracePosition = none) (j : Nat) :
    (ts.zipIdx j).foldlM (processToken file available tokens) p = .ok { p with
      curNewLine := lineMark p.curNewLine ts j
      lastToken := lastKind p.lastToken ts } := by
  induction ts generalizing p j with
  | nil => rfl
  | cons t ts ih =>
    have ht := inert t (by simp)
    have hstep := processToken_inert file available tokens j
      unnamed ht
    have hopen : (p.pass t j).rBracePosition = none := by
      unfold pass readNewLine
      split <;> exact open_
    have htail : (p.pass t j).readTail t = p.pass t j := by
      rw [readTail, hopen, Option.isSome_none, if_neg Bool.false_ne_true]
    rw [List.zipIdx_cons, List.foldlM_cons, hstep, htail]
    have hrest := ih (fun t h => inert t (List.mem_cons_of_mem _ h)) (unnamed_pass ht p j) hopen (j + 1)
    rw [lastKind_cons]
    refine hrest.trans ?_
    unfold pass readNewLine
    split_ifs with newline <;> simp [lineMark, newline]

def tailTable (table : String) (tail : List Token) : String :=
  ((tail.filter fun t => t.kind = .ID).getLast?.map Token.lexeme).getD table

def tailVisibility (visibility : Visibility) (tail : List Token) : Visibility :=
  if tail.any fun t => t.kind = .PCOMMA then .PRIVATE else visibility

/-- The tokens after the closing brace. -/
theorem fold_tail {tail : List Token} (plain : ∀ t ∈ tail, t.kind.structural = false)
    {p : Processing} (unnamed : p.Unnamed) (closed : p.rBracePosition.isSome) (j : Nat) :
    (tail.zipIdx j).foldlM (processToken file available tokens) p = .ok { p with
      curNewLine := lineMark p.curNewLine tail j
      lastToken := lastKind p.lastToken tail
      message := { p.message with
        tableName := tailTable p.message.tableName tail
        visibility := tailVisibility p.message.visibility tail } } := by
  induction tail generalizing p j with
  | nil => rfl
  | cons t tail ih =>
    have ht := Or.inr (a := t.kind = .NEWLINE) (plain t (by simp))
    have hstep := processToken_inert file available tokens j
      unnamed ht
    have hne : t.kind ≠ .NEWLINE := by
      intro h
      have := plain t (by simp)
      simp [h, TokenKind.structural] at this
    have hpass : p.pass t j = { p with lastToken := some t.kind } := by
      rw [pass, readNewLine, if_neg hne]
    have hun : ((p.pass t j).readTail t).Unnamed := by
      have := unnamed_pass ht p j
      unfold readTail
      split_ifs <;> exact this
    have hcl : ((p.pass t j).readTail t).rBracePosition.isSome := by
      rw [hpass]
      unfold readTail
      split_ifs <;> exact closed
    have hmark : lineMark p.curNewLine (t :: tail) j = lineMark p.curNewLine tail (j + 1) := by
      simp [lineMark, hne]
    have hrest := ih (fun t h => plain t (List.mem_cons_of_mem _ h)) hun hcl (j + 1)
    rw [List.zipIdx_cons, List.foldlM_cons, hstep, lastKind_cons, ok_bind, hmark]
    refine hrest.trans ?_
    rw [hpass, readTail, if_pos closed]
    split_ifs with pcomma id
    · simp [tailTable, tailVisibility, pcomma]
    · simp [tailTable, tailVisibility, id, List.getLast?_cons]
    · simp [tailTable, tailVisibility, pcomma, id]

theorem applyModifiers_nil {message : ParsedMessage} (h : message.accessModifiers = []) :
    applyModifiers message [] = message := by
  cases message
  simp only at h
  simp [applyModifiers, modified, cacheMode, h]

/-- The keyword of a definition, with the line's modifiers before it. -/
theorem processToken_keyword {p : Processing} {t : Token} {j : Nat} {modifiers : List Token}
    (unnamed : p.Unnamed) (open_ : p.rBracePosition = none) (plain : p.isEnum = false)
    (fresh : p.message.accessModifiers = [])
    (ht : t.kind = .MESSAGE ∨ t.kind = .ENUM ∧ modifiers = [])
    (read : slice tokens (p.curNewLine.elim 0 fun newLine => newLine + 1 : Nat) j = modifiers)
    (consistent : ¬ ((applyModifiers p.message modifiers).isProtected ∧
      (applyModifiers p.message modifiers).isOpen)) :
    processToken file available tokens p (t, j) = .ok { p with
      message := applyModifiers p.message modifiers
      isEnum := t.kind = .ENUM
      lastToken := some t.kind } := by
  have newline : p.readNewLine t j = p := by
    rcases ht with h | ⟨h, _⟩ <;> simp [readNewLine, h]
  have named : ∀ q : Processing, q.lastToken = p.lastToken → readName file q t = .ok q :=
    fun q hq => readName_unnamed file unnamed hq t
  rcases ht with message | ⟨enum, rfl⟩
  · have hk : readKeyword file tokens p t j =
        .ok { p with message := applyModifiers p.message modifiers } := by
      simp only [readKeyword, message, plain, reduceCtorEq, Bool.false_eq_true, or_self, or_false,
        if_true, if_false]
      rw [read, if_neg consistent]
    rw [processToken, newline]
    refine bind_eq_ok.mpr ⟨_, hk, bind_eq_ok.mpr ⟨_, named _ rfl, ?_⟩⟩
    simp [readLBrace, readRBrace, readTail, message, open_, plain]
  · have hk : readKeyword file tokens p t j = .ok { p with isEnum := true } := by
      simp [readKeyword, enum]
    rw [processToken, newline]
    refine bind_eq_ok.mpr ⟨_, hk, bind_eq_ok.mpr ⟨_, named _ rfl, ?_⟩⟩
    simp [readLBrace, readRBrace, readTail, enum, open_, applyModifiers_nil fresh]

theorem processToken_name {p : Processing} {t : Token} (j : Nat)
    (keyword : p.lastToken = some .MESSAGE ∨ p.lastToken = some .ENUM)
    (open_ : p.rBracePosition = none) (ht : t.kind = .ID) :
    processToken file available tokens p (t, j) =
      .ok { p with name := some t.lexeme, lastToken := some .ID } := by
  have hn : readName file p t = .ok { p with name := some t.lexeme } := by
    rw [readName, if_pos keyword, if_pos ht]
  simp [processToken, readNewLine, readKeyword, readLBrace, readRBrace, readTail, ht, hn, open_]

theorem processToken_lbrace {p : Processing} {t : Token} (j : Nat) (unnamed : p.Unnamed)
    (open_ : p.rBracePosition = none) (named : p.name.isSome) (ht : t.kind = .LBRACE) :
    processToken file available tokens p (t, j) =
      .ok { p with startOfVariables := j + 1, lastToken := some .LBRACE } := by
  have hn : readName file p t = .ok p := readName_unnamed file unnamed rfl t
  have hname : p.name ≠ none := Option.isSome_iff_ne_none.mp named
  simp [processToken, readNewLine, readKeyword, readLBrace, readRBrace, readTail, ht, hn, open_, hname]

theorem processToken_rbrace {p : Processing} {t : Token} {j : Nat} (unnamed : p.Unnamed)
    (ht : t.kind = .RBRACE) {message : ParsedMessage} {sidecars : Sidecars}
    (read : readBody file available p.name p.isEnum p.sidecars p.message
      (slice tokens p.startOfVariables ((j : Int) - 1)) = .ok (message, sidecars)) :
    processToken file available tokens p (t, j) = .ok { p with
      message := message, sidecars := sidecars, rBracePosition := some j,
      lastToken := some .RBRACE } := by
  have hn : readName file p t = .ok p := readName_unnamed file unnamed rfl t
  simp [processToken, readNewLine, readKeyword, readLBrace, readRBrace, readTail, ht, hn, read]

theorem readBody_keeps {name : Option String} {isEnum : Bool} {sidecars sidecars' : Sidecars}
    {message message' : ParsedMessage} {body : List Token}
    (h : readBody file available name isEnum sidecars message body = .ok (message', sidecars')) :
    message'.file = message.file ∧ message'.tableName = message.tableName ∧
      message'.visibility = message.visibility := by
  unfold readBody at h
  split at h
  · obtain ⟨values, _, h⟩ := bind_eq_ok.mp h
    obtain ⟨rfl, rfl⟩ := Prod.mk.inj (Except.ok.inj h)
    exact ⟨rfl, rfl, rfl⟩
  · obtain ⟨read, _, h⟩ := bind_eq_ok.mp h
    obtain ⟨frozen, _, h⟩ := bind_eq_ok.mp h
    obtain ⟨rfl, rfl⟩ := Prod.mk.inj (Except.ok.inj h)
    exact ⟨rfl, rfl, rfl⟩

end Processing

namespace Definition

/-- The tokens `CreateMessages` cuts out for a definition, once the nested ones are gone. -/
def slice (d : Definition) : List Token :=
  d.header.opening ++ (d.body.own [d.header.newline] ++ d.closing.rbrace :: d.closing.tail)

theorem ownTokens_append (d : Definition) :
    ∃ last, d.body.own [d.header.newline] = d.ownTokens ++ [last] :=
  ⟨_, (List.dropLast_append_getLast (d.body.own_ne_nil (by simp))).symm⟩

/-- An enum carries no modifiers. -/
def PlainEnum (d : Definition) : Prop := d.isEnum → d.header.modifiers = []

instance (d : Definition) : Decidable d.PlainEnum :=
  inferInstanceAs (Decidable (d.isEnum = true → d.header.modifiers = []))

end Definition

open Processing in
/-- The header of a definition after whole lines: its modifiers are read off its own line. -/
theorem fold_opening (file : String) (available : List String) {d : Definition}
    (plainEnum : d.PlainEnum) {lead : List Token} (rest : List Token) (inert : Inert lead)
    (whole : WholeLines lead) (sidecars : Sidecars) {message : ParsedMessage}
    (hm : message = applyModifiers { file := file, name := "" } d.header.modifiers)
    (consistent : ¬ (message.isProtected ∧ message.isOpen)) :
    ∃ cur, ((lead ++ d.header.opening).zipIdx).foldlM
        (processToken file available (lead ++ (d.header.opening ++ rest)))
        { message := { file := file, name := "" }, sidecars := sidecars } =
      .ok {
        name := some d.header.name.lexeme
        message := message
        curNewLine := cur
        isEnum := d.isEnum
        lastToken := some .LBRACE
        startOfVariables := (lead ++ d.header.opening).length
        sidecars := sidecars } := by
  subst hm
  let h := d.header
  let tokens := lead ++ (h.opening ++ rest)
  have hlead := fold_inert file available tokens inert
    (p := { message := { file := file, name := "" }, sidecars := sidecars }) (by simp [Unnamed]) rfl 0
  have unnamed := lastKind_inert inert none (by simp)
  have hmods := fold_inert file available tokens
    (inert_of_plain h.modifiers_plain)
    (p := { message := { file := file, name := "" }, sidecars := sidecars,
            curNewLine := lineMark none lead 0, lastToken := lastKind none lead }) unnamed rfl
    (0 + lead.length)
  have unnamed' := lastKind_inert (inert_of_plain h.modifiers_plain) _ unnamed
  rw [lineMark_plain h.modifiers_plain] at hmods
  have read : Harpia.slice tokens
      ((lineMark none lead 0).elim 0 fun newLine => newLine + 1 : Nat)
      (0 + lead.length + h.modifiers.length : Nat) = h.modifiers := by
    have start : (lineMark none lead 0).elim 0 (fun newLine => newLine + 1) = lead.length := by
      by_cases hne : lead = []
      · subst hne
        rfl
      · have := List.length_pos_iff.mpr hne
        rw [lineMark_wholeLines whole hne, Option.elim_some]
        omega
    rw [start, Nat.zero_add]
    simp only [tokens, Header.opening, List.append_assoc]
    exact slice_append _ _ _
  have keyword_kind : h.keyword.kind = .MESSAGE ∨ h.keyword.kind = .ENUM ∧ h.modifiers = [] := by
    rcases h.keyword_kind with message | enum
    · exact Or.inl message
    · exact Or.inr ⟨enum, plainEnum (by simp [Definition.isEnum, h, enum])⟩
  have hkeyword := processToken_keyword file available tokens
    (p := { message := { file := file, name := "" }, sidecars := sidecars,
            curNewLine := lineMark none lead 0
            lastToken := lastKind (lastKind none lead) h.modifiers })
    unnamed' rfl rfl rfl keyword_kind read consistent
  have hname := processToken_name file available tokens
    (p := { message := applyModifiers { file := file, name := "" } h.modifiers, sidecars := sidecars,
            curNewLine := lineMark none lead 0, isEnum := h.keyword.kind = .ENUM
            lastToken := some h.keyword.kind })
    (0 + lead.length + h.modifiers.length + 1) (by simpa using h.keyword_kind) rfl h.name_kind
  have hlbrace := processToken_lbrace file available tokens
    (p := { name := some h.name.lexeme
            message := applyModifiers { file := file, name := "" } h.modifiers, sidecars := sidecars,
            curNewLine := lineMark none lead 0, isEnum := h.keyword.kind = .ENUM
            lastToken := some .ID })
    (0 + lead.length + h.modifiers.length + 1 + 1) (by simp [Unnamed]) rfl rfl h.lbrace_kind
  refine ⟨lineMark none lead 0, ?_⟩
  refine fold_append hlead (fold_append hmods (fold_cons hkeyword (fold_cons hname
    (fold_cons hlbrace ?_))))
  simp [Definition.isEnum, h, Header.opening, Pure.pure, Except.pure, Nat.add_assoc]

/-- What an accepted definition consists of. -/
theorem message_eq_ok {d : Definition} {file : String} {available : List String}
    {sidecars sidecars' : Sidecars} {m : ParsedMessage}
    (h : d.message file available sidecars = .ok (m, sidecars')) :
    ∃ message body, message = Processing.applyModifiers { file := file, name := "" } d.header.modifiers ∧
      ¬ (message.isProtected ∧ message.isOpen) ∧
      Processing.readBody file available (some d.header.name.lexeme) d.isEnum sidecars message
        d.ownTokens = .ok (body, sidecars') ∧
      ¬ (body.isAutokey ∧ d.tableName = "") ∧
      m = { body with
        name := d.header.name.lexeme, tableName := d.tableName, visibility := d.visibility } := by
  obtain ⟨⟨body, written⟩, declared, h⟩ := bind_eq_ok.mp h
  simp only at h
  split at h
  · cases h
  next autokey =>
    obtain ⟨rfl, rfl⟩ := Prod.mk.inj (Except.ok.inj h)
    unfold Definition.declare at declared
    simp only at declared
    split at declared
    · cases declared
    next consistent => exact ⟨_, body, rfl, consistent, declared, autokey, rfl⟩

open Processing in
/-- `Message.Process` on the tokens of a definition, whatever whole lines come before it. -/
theorem process_definition {file : String} {available : List String} {d : Definition}
    (plainEnum : d.PlainEnum) {lead : List Token} (inert : Inert lead) (whole : WholeLines lead)
    {sidecars sidecars' : Sidecars} {m : ParsedMessage}
    (h : d.message file available sidecars = .ok (m, sidecars')) :
    Message.process file available sidecars (lead ++ d.slice) = .ok (m, sidecars') := by
  obtain ⟨message, body, hm, consistent, read, autokey, rfl⟩ := message_eq_ok h
  have kept := readBody_keeps file available read
  let own := d.body.own [d.header.newline]
  let tail := d.closing.tail
  let tokens := lead ++ d.slice
  let opening := lead ++ d.header.opening
  have own_inert : Inert own := d.body.own_inert (inert_newline d.header.newline_kind)
  obtain ⟨cur, hopening⟩ := fold_opening file available plainEnum
    (own ++ d.closing.rbrace :: tail) inert whole sidecars hm consistent
  have hown := fold_inert file available tokens own_inert
    (p := {
      name := some d.header.name.lexeme, message := message, curNewLine := cur, isEnum := d.isEnum
      lastToken := some .LBRACE, startOfVariables := opening.length, sidecars := sidecars })
    (by simp [Unnamed]) rfl (0 + opening.length)
  have unnamed := lastKind_inert own_inert (some .LBRACE) (by simp)
  obtain ⟨last, hlast⟩ := d.ownTokens_append
  have length := congrArg List.length hlast
  simp only [List.length_append, List.length_singleton] at length
  have bodyTokens : Harpia.slice tokens opening.length
      (((0 + opening.length + own.length : Nat) : Int) - 1) = d.ownTokens := by
    have split : tokens = opening ++ (d.ownTokens ++ last :: d.closing.rbrace :: tail) := by
      simp [tokens, opening, tail, Definition.slice, hlast]
    have stop : ((0 + opening.length + own.length : Nat) : Int) - 1
        = (opening.length + d.ownTokens.length : Nat) := by
      have hl : own.length = d.ownTokens.length + 1 := length
      omega
    rw [split, stop]
    exact slice_append _ _ _
  have hrbrace := processToken_rbrace file available tokens
    (p := {
      name := some d.header.name.lexeme, message := message, curNewLine := lineMark cur own (0 + opening.length)
      isEnum := d.isEnum, lastToken := lastKind (some .LBRACE) own
      startOfVariables := opening.length, sidecars := sidecars })
    (j := 0 + opening.length + own.length) unnamed d.closing.rbrace_kind
    (by rw [bodyTokens]; exact read)
  have htail := fold_tail file available tokens
    d.closing.tail_plain
    (p := {
      name := some d.header.name.lexeme, message := body, curNewLine := lineMark cur own (0 + opening.length)
      isEnum := d.isEnum, lastToken := some .RBRACE
      startOfVariables := opening.length, rBracePosition := some (0 + opening.length + own.length)
      sidecars := sidecars' })
    (by simp [Unnamed]) rfl (0 + opening.length + own.length + 1)
  have hfold := fold_append hopening (fold_append hown (fold_cons hrbrace htail))
  have hsplit : lead ++ d.header.opening ++ (own ++ d.closing.rbrace :: tail) = lead ++ d.slice :=
    List.append_assoc _ _ _
  have table : tailTable body.tableName tail = d.tableName := by
    rw [kept.2.1, hm]
    rfl
  have visible : tailVisibility body.visibility tail = d.visibility := by
    rw [kept.2.2, hm]
    rfl
  rw [hsplit] at hfold
  refine bind_eq_ok.mpr ⟨_, hfold, ?_⟩
  simp only [finish]
  rw [table, visible, if_neg autokey]

end Harpia
