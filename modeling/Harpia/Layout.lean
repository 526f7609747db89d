import Harpia.MessageCreator

namespace Harpia

/-- The line a definition starts on: its modifiers, `message` or `enum`, the name and `{`. -/
structure Header where
  modifiers : List Token
  keyword : Token
  name : Token
  lbrace : Token
  newline : Token
  modifiers_plain : ∀ t ∈ modifiers, t.kind.structural = false
  keyword_kind : keyword.kind = .MESSAGE ∨ keyword.kind = .ENUM
  name_kind : name.kind = .ID
  lbrace_kind : lbrace.kind = .LBRACE
  newline_kind : newline.kind = .NEWLINE

/-- A line that neither starts nor ends a definition: a field, an enumerator, or nothing at all. -/
structure Line where
  content : List Token
  newline : Token
  content_plain : ∀ t ∈ content, t.kind.structural = false
  newline_kind : newline.kind = .NEWLINE

/-- The line a definition ends on: `}` and what follows it. -/
structure Closing where
  rbrace : Token
  tail : List Token
  newline : Token
  rbrace_kind : rbrace.kind = .RBRACE
  tail_plain : ∀ t ∈ tail, t.kind.structural = false
  newline_kind : newline.kind = .NEWLINE

/-- The lines of a file or of a body, with definitions nested to any depth and in any order. -/
inductive Layout
  | nil
  | line (l : Line) (rest : Layout)
  | definition (header : Header) (body : Layout) (closing : Closing) (rest : Layout)

structure Definition where
  header : Header
  body : Layout
  closing : Closing

def Header.opening (h : Header) : List Token := h.modifiers ++ [h.keyword, h.name, h.lbrace]

def Header.tokens (h : Header) : List Token := h.opening ++ [h.newline]

def Line.tokens (l : Line) : List Token := l.content ++ [l.newline]

def Closing.tokens (c : Closing) : List Token := c.rbrace :: c.tail ++ [c.newline]

namespace Layout

def tokens : Layout → List Token
  | nil => []
  | line l rest => l.tokens ++ rest.tokens
  | definition h body c rest => h.tokens ++ (body.tokens ++ (c.tokens ++ rest.tokens))

/-- The lines that belong to the body itself, after those already read: of a nested definition only
the last line end stays, in place of the one before it. -/
def own (read : List Token) : Layout → List Token
  | nil => read
  | line l rest => rest.own (read ++ l.tokens)
  | definition _ _ c rest => rest.own (read.dropLast ++ [c.newline])

/-- The definitions, each after the ones nested in it. -/
def definitions : Layout → List Definition
  | nil => []
  | line _ rest => rest.definitions
  | definition h body c rest => body.definitions ++ ⟨h, body, c⟩ :: rest.definitions

end Layout

namespace Definition

def tokens (d : Definition) : List Token := d.header.tokens ++ (d.body.tokens ++ d.closing.tokens)

def isEnum (d : Definition) : Bool := d.header.keyword.kind = .ENUM

/-- The last identifier after the closing brace. -/
def tableName (d : Definition) : String :=
  ((d.closing.tail.filter fun t => t.kind = .ID).getLast?.map Token.lexeme).getD ""

def visibility (d : Definition) : Visibility :=
  if d.closing.tail.any fun t => t.kind = .PCOMMA then .PRIVATE else .PUBLIC

/-- The tokens of the definition's own lines, without the last line end. -/
def ownTokens (d : Definition) : List Token := (d.body.own [d.header.newline]).dropLast

/-- The definition's own modifiers and declarations: what stands before the `}`. -/
def declare (d : Definition) (file : String) (availableMessages : List String)
    (sidecars : Sidecars) : Except Failure (ParsedMessage × Sidecars) :=
  let message := Processing.applyModifiers { file := file, name := "" } d.header.modifiers
  if message.isProtected ∧ message.isOpen then
    .error (d.header.keyword.error file .MODIFIERS .CONFLICTING_HARDENING_MODIFIERS)
  else
    Processing.readBody file availableMessages (some d.header.name.lexeme) d.isEnum sidecars message
      d.ownTokens

/-- The message a definition stands for: its own name, modifiers, declarations and table name. An
`autokey` message needs a table. -/
def message (d : Definition) (file : String) (availableMessages : List String)
    (sidecars : Sidecars) : Except Failure (ParsedMessage × Sidecars) := do
  let (m, sidecars) ← d.declare file availableMessages sidecars
  if m.isAutokey ∧ d.tableName = "" then
    .error (.error {
      errCl := .MODIFIERS
      errTp := .AUTOKEY_WITHOUT_TABLE
      fileName := file
      fileLine := "0"
      characterNumber := "0" })
  else
    .ok ({ m with
      name := d.header.name.lexeme, tableName := d.tableName, visibility := d.visibility }, sidecars)

end Definition

/-- One more definition, read with the names known before it. -/
def Parsed.add (file : String) (p : Parsed) (d : Definition) : Except Failure Parsed := do
  let (m, sidecars) ← d.message file p.availableMessages p.sidecars
  .ok {
    messages := p.messages ++ [m]
    availableMessages := p.availableMessages ++ [m.name]
    sidecars := sidecars }

def Parsed.addAll (file : String) (p : Parsed) (ds : List Definition) : Except Failure Parsed :=
  ds.foldlM (Parsed.add file) p

namespace Layout

/-- No call jumps over a keyword or a closing brace of a body. After a nested definition with `n`
modifiers a call goes on `n` tokens past its last line end: the next `n - 1` tokens are not looked
at, and of the one after them only whether it is a closing brace. `skipped` is what is left of `n`. -/
def Scanned (skipped : Nat) : Layout → Prop
  | nil => skipped ≤ 1
  | line l rest => rest.Scanned (skipped - l.tokens.length)
  | definition h body _ rest =>
    skipped ≤ h.modifiers.length ∧ body.Scanned 0 ∧ rest.Scanned h.modifiers.length

/-- The same for the definitions of a file. -/
def AllScanned : Layout → Prop
  | nil => True
  | line _ rest => rest.AllScanned
  | definition _ body _ rest => body.Scanned 0 ∧ rest.AllScanned

end Layout

end Harpia
